import Mitdist.RaftHints

/-!
# Backing off after a rejection

A leader that was refused looks for the next index in the hint and in its own
log. With terms that rise and logs that are equal wherever their terms meet,
the next index goes down at every refusal, and never below the last index at
which the two logs meet.
-/

set_option autoImplicit false

namespace Mitdist.LogBackoff
open Mitdist.RaftPeer Mitdist.RaftHandlers Mitdist.RaftWindow Mitdist.RaftOutcomes
open Mitdist.StampedLog Mitdist.StampedSearch Mitdist.RaftHints

variable {C : Type}

def Untrimmed (rf : Raft C) : Prop :=
  rf.lastIncludedIndex = -1 ∧ rf.lastIncludedTerm = 0 ∧ rf.baseIndex = 0

instance decidableUntrimmed (rf : Raft C) : Decidable (Untrimmed rf) :=
  inferInstanceAs (Decidable (_ ∧ _ ∧ _))

def SortedTerms (l : List (LogEntry C)) : Prop := l.Pairwise (fun d e => d.term ≤ e.term)

instance decidableSortedTerms (l : List (LogEntry C)) : Decidable (SortedTerms l) :=
  inferInstanceAs (Decidable (List.Pairwise _ l))

/-- The two logs have entries of one term at the index. -/
def TermsMeet (l f : List (LogEntry C)) (k : ℕ) : Prop :=
  ∃ d e, l[k]? = some d ∧ f[k]? = some e ∧ d.term = e.term

def LogMatching (l f : List (LogEntry C)) : Prop :=
  ∀ k, TermsMeet l f k → ∀ j ≤ k, l[j]? = f[j]?

/-- The largest index at which the terms of two logs are equal, `-1` if there
is none. -/
def LastCommon (l f : List (LogEntry C)) (m : ℤ) : Prop :=
  (m = -1 ∨ ∃ k : ℕ, m = k ∧ TermsMeet l f k) ∧ ∀ k : ℕ, TermsMeet l f k → (k:ℤ) ≤ m

theorem untrimmed_window (rf : Raft C) (h : Untrimmed rf) : Window rf.log 0 rf :=
  ⟨h.2.2,h.1,Nat.zero_le _,rfl,h.2.1⟩

theorem sorted_ascending (l : List (LogEntry C)) (h : SortedTerms l) : Ascending l := by
  intro j k hjk hk
  cases j with
  | zero => exact Nat.zero_le _
  | succ j =>
    obtain ⟨i,rfl⟩ : ∃ i, k = i+1 := ⟨k-1,by omega⟩
    rcases Nat.eq_or_lt_of_le hjk with heq | hlt
    · rw [heq]
    · have hj : l[j]? = some l[j] := List.getElem?_eq_getElem (by omega)
      have hi : l[i]? = some l[i] := List.getElem?_eq_getElem (by omega)
      rw [stamp_at_succ l j _ hj, stamp_at_succ l i _ hi]
      exact List.pairwise_iff_getElem.mp h j i _ _ (by omega)

theorem matches_meet (l f : List (LogEntry C)) (k : ℕ) (hk : k < l.length) :
    Matches l f (k+1) ↔ TermsMeet l f k := by
  have hd : l[k]? = some l[k] := List.getElem?_eq_getElem hk
  constructor
  · rintro ⟨hf,hs⟩
    have he : f[k]? = some f[k] := List.getElem?_eq_getElem hf
    rw [stamp_at_succ l k _ hd, stamp_at_succ f k _ he] at hs
    exact ⟨_,_,hd,he,hs.symm⟩
  · rintro ⟨d,e,hd,he,hs⟩
    rw [Matches, stamp_at_succ l k d hd, stamp_at_succ f k e he]
    exact ⟨(List.getElem?_eq_some_iff.mp he).1,hs.symm⟩

/-- Below an index at which the terms meet, they meet everywhere. -/
theorem meets_below (l f : List (LogEntry C)) (h : LogMatching l f) (k j : ℕ) (hjk : j ≤ k)
    (hk : TermsMeet l f k) : TermsMeet l f j := by
  have hget := h k hk j hjk
  obtain ⟨d,_,hd,-,-⟩ := hk
  have hlt := (List.getElem?_eq_some_iff.mp hd).1
  have hj : l[j]? = some l[j] := List.getElem?_eq_getElem (by omega)
  exact ⟨_,_,hj,hget ▸ hj,rfl⟩

theorem backoff_common (l f : List (LogEntry C)) (hl : SortedTerms l) (hf : SortedTerms f)
    (hmatch : LogMatching l f) (x : ℕ) (hx : x ≤ l.length) (hno : ¬ Matches l f x) (m : ℤ)
    (hm : LastCommon l f m) : m ≤ backoff l f x ∧ (backoff l f x : ℤ) ≤ (x:ℤ)-1 := by
  have hlt := backoff_lt l f x hno
  refine ⟨?_,by omega⟩
  rcases hm.1 with rfl | ⟨k,rfl,hk⟩
  · omega
  · have hkl : k < l.length := by
      obtain ⟨d,-,hd,-⟩ := hk
      exact (List.getElem?_eq_some_iff.mp hd).1
    have hkx : k+1 ≤ x := by
      by_contra hc
      obtain ⟨y,rfl⟩ : ∃ y, x = y+1 := ⟨x-1,by omega⟩
      exact hno ((matches_meet l f y hx).mpr (meets_below l f hmatch k y (by omega) hk))
    have := backoff_retains l f (sorted_ascending l hl) (sorted_ascending f hf) x (k+1) hx
      (by omega) ((matches_meet l f k hkl).mpr hk) hkx
    omega

/-- A request is rejected by an untrimmed follower of its term for one reason
only, and with the hint for its position. -/
theorem rejected_hint (rf rf' : Raft C) (args : AppendEntriesArgs C) (reply : AppendEntriesReply)
    (l : List (LogEntry C)) (x : ℕ) (h : Untrimmed rf) (hterm : rf.currentTerm = args.term)
    (hprev : args.prevLogIndex = (x:ℤ)-1) (hstamp : args.prevLogTerm = stampAt l x)
    (hrej : appendEntries rf args = .ok (rf',reply)) (hfail : reply.success = false) :
    ¬ Matches l rf.log x ∧ reply.term = args.term ∧ reply.logInfo = hint rf.log 0 x := by
  have w := prepared_window rf.log 0 rf (untrimmed_window rf h) args.term
  have hsame := (prepared_fields rf args.term).2.2.2.2.2
  rw [hterm, max_self] at hsame
  generalize hrf1 : stopCandidacy (handleHigherTerm rf args.term) args.term = rf1 at w hsame
  have hno : ¬ Matches l rf.log x := by
    intro hyes
    rw [Matches, ← hstamp] at hyes
    rw [appendEntries, hrf1, hprev, if_neg (by rw [w.included]; omega),
      entry_has_term w x (Nat.zero_le x), ok_bind, decide_eq_true hyes, mismatchInfo, if_pos rfl,
      ok_bind, if_pos ⟨rfl,hsame.not_gt⟩, bind_ok] at hrej
    obtain ⟨rf2,-,hrej⟩ := hrej
    have hreply := (Prod.mk.inj (Except.ok.inj hrej)).2
    rw [← hreply] at hfail
    cases hfail
  rw [append_entries_rejected rf rf1 args hrf1.symm rf.log 0 x w hprev (Nat.zero_le x)
    (by rw [hstamp]; exact hno), Except.ok.injEq, Prod.mk.injEq] at hrej
  obtain ⟨-,rfl⟩ := hrej
  exact ⟨hno,hsame,rfl⟩

/-- After a rejected request for the index `p`, the next index is at most `p`
and not below the last index at which the logs of the leader and the follower
meet. -/
theorem rejection_backs_off (leader follower follower' : Raft C) (server : ℕ)
    (args : AppendEntriesArgs C) (reply : AppendEntriesReply) (m : ℤ)
    (hlead : leader.state = .leader) (hargs : args.term = leader.currentTerm)
    (hterm : follower.currentTerm = leader.currentTerm) (hL : Untrimmed leader)
    (hF : Untrimmed follower) (hsortL : SortedTerms leader.log) (hsortF : SortedTerms follower.log)
    (hmatch : LogMatching leader.log follower.log) (hserver : server < leader.nextIndex.length)
    (hprev : ∃ e, logEntry leader args.prevLogIndex = .ok e ∧ args.prevLogTerm = e.term)
    (hrej : appendEntries follower args = .ok (follower',reply)) (hfail : reply.success = false)
    (hm : LastCommon leader.log follower.log m) :
    ∃ leader' next, handleAppendReply leader server args reply = .ok leader' ∧
      leader'.nextIndex[server]? = some next ∧ m ≤ next ∧ next ≤ args.prevLogIndex := by
  have w := untrimmed_window leader hL
  obtain ⟨e,he,het⟩ := hprev
  obtain ⟨x,hx,-,hlen,hstamp⟩ := log_entry_term w _ e he
  obtain ⟨hno,hrt,hinfo⟩ := rejected_hint follower follower' args reply leader.log x hF
    (hterm.trans hargs.symm) hx (het.trans hstamp) hrej hfail
  have hset := append_reply_rejected w server args reply x hlead hargs.symm hrt.le hfail hserver hx
    hlen
  obtain ⟨hlow,hhigh⟩ := backoff_common leader.log follower.log hsortL hsortF hmatch x hlen hno m hm
  rw [hinfo, retry_backoff _ _ x hno] at hset
  rw [hx]
  exact ⟨_,_,hset,List.getElem?_set_self hserver,hlow,hhigh⟩

def divergedLeader : Raft ℕ :=
  { make 3 0 {} with
    currentTerm := 5
    state := .leader
    log := [⟨0,1,some 1⟩,⟨1,2,some 2⟩,⟨2,2,some 3⟩,⟨3,4,some 4⟩] }

def divergedFollower : Raft ℕ :=
  { make 3 1 {} with
    currentTerm := 5
    log := [⟨0,1,some 1⟩,⟨1,1,some 5⟩,⟨2,3,some 6⟩,⟨3,3,some 7⟩] }

theorem diverged_meet (k : ℕ) (h : TermsMeet divergedLeader.log divergedFollower.log k) :
    k = 0 := by
  obtain ⟨d,e,hd,he,ht⟩ := h
  match k with
  | 0 => rfl
  | 1 | 2 | 3 =>
    obtain rfl := Option.some.inj hd
    obtain rfl := Option.some.inj he
    cases ht
  | k+4 => cases hd

theorem rejection_backs_off_diverged : ∃ follower' reply leader' next,
    appendEntries divergedFollower ⟨5,0,3,4,[],-1⟩ = .ok (follower',reply) ∧
    handleAppendReply divergedLeader 1 ⟨5,0,3,4,[],-1⟩ reply = .ok leader' ∧
    leader'.nextIndex[1]? = some next ∧ 0 ≤ next ∧ next ≤ 3 := by
  have hmatch : LogMatching divergedLeader.log divergedFollower.log := by
    intro k hk j hj
    obtain rfl := diverged_meet k hk
    obtain rfl : j = 0 := by omega
    rfl
  have hcommon : LastCommon divergedLeader.log divergedFollower.log 0 := by
    constructor
    · exact Or.inr ⟨0,rfl,_,_,rfl,rfl,rfl⟩
    · intro k hk
      obtain rfl := diverged_meet k hk
      exact le_rfl
  obtain ⟨leader',next,h1,h2,h3,h4⟩ := rejection_backs_off divergedLeader divergedFollower _ 1
    ⟨5,0,3,4,[],-1⟩ _ 0 rfl rfl rfl (by decide) (by decide) (by decide) (by decide) hmatch
    (by decide) ⟨_,rfl,rfl⟩ rfl rfl hcommon
  exact ⟨_,_,leader',next,rfl,h1,h2,h3,h4⟩

end Mitdist.LogBackoff
