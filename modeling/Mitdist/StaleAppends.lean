import Mitdist.RaftReads

/-!
# Stale and repeated requests

The requests of one leader in one term are all cut from one log that only
grows. A follower that accepted a request holds the leader's log up to the
end of the request, so an older request of the leader finds its entries in
place and has nothing left to commit.
-/

set_option autoImplicit false

namespace Mitdist.StaleAppends
open Mitdist.RaftPeer Mitdist.RaftHandlers Mitdist.RaftWindow Mitdist.RaftOutcomes
open Mitdist.StampedLog Mitdist.RaftRelation Mitdist.RaftSections Mitdist.RaftReplication
open Mitdist.RaftHints Mitdist.RaftReads

variable {C : Type}

/-- Handling requests one after another. -/
def deliver (rf : Raft C) :
    List (AppendEntriesArgs C) → Except Fault (Raft C × List AppendEntriesReply)
  | [] => .ok (rf, [])
  | args::rest => do
    let (rf1, reply) ← appendEntries rf args
    let (rf2, replies) ← deliver rf1 rest
    return (rf2, reply::replies)

/-- The snapshot ends before the first entry of the log. -/
structure WellFormed (rf : Raft C) : Prop where
  base : rf.baseIndex = rf.lastIncludedIndex + 1
  included : -1 ≤ rf.lastIncludedIndex
  whole : rf.lastIncludedIndex = -1 → rf.lastIncludedTerm = 0

/-- If the peer has the term of a log at an index, it has its terms up to
there, and its entries as far as it retains them. -/
def LogMatching (l : List (LogEntry C)) (rf : Raft C) : Prop :=
  ∀ (k : ℕ) (d e : LogEntry C), l[k]? = some d → logEntry rf k = .ok e → e.term = d.term →
    ∀ j ≤ k, ∀ d' e', l[j]? = some d' → logEntry rf j = .ok e' →
      e'.term = d'.term ∧ (rf.lastIncludedIndex < j → e' = d')

/-- What a leader cuts from its log at a position. -/
structure Cut (l : List (LogEntry C)) (T : ℕ) (commit : ℤ) (args : AppendEntriesArgs C) (p : ℕ) :
    Prop where
  term : args.term = T
  prev : args.prevLogIndex = (p:ℤ)-1
  bound : p ≤ l.length
  prevTerm : args.prevLogTerm = stampAt l p
  entries : args.entries = l.drop p
  commit : args.leaderCommitIndex = commit

theorem cut_end (l : List (LogEntry C)) (T : ℕ) (commit : ℤ) (args : AppendEntriesArgs C) (p : ℕ)
    (h : Cut l T commit args p) :
    args.prevLogIndex + args.entries.length = (l.length:ℤ)-1 := by
  have hb := h.bound
  rw [h.prev, h.entries, List.length_drop]
  omega

theorem request_cut (rf : Raft C) (l : List (LogEntry C)) (b T server : ℕ) (w : Window l b rf)
    (args : AppendEntriesArgs C)
    (h : appendMissingEntries rf T server = .ok (some (.appendEntries args))) :
    ∃ p, Cut l T rf.commitIndex args p := by
  rcases append_missing_outcome T server _ h with hnone | ⟨-,-,⟨_,-,hsnap⟩ |
    ⟨next,prev,missing,hprev,hmissing,hargs⟩⟩
  · cases hnone
  · cases hsnap
  · obtain ⟨p,hp,hbp,hpl,hterm⟩ := log_entry_term w _ prev hprev
    have hnext : next = p := by omega
    subst hnext
    obtain rfl := Request.appendEntries.inj (Option.some.inj hargs)
    refine ⟨p,rfl,rfl,hpl,hterm,?_,rfl⟩
    show missing = l.drop p
    rw [last_log_index w] at hmissing
    rcases hmissing with ⟨-,hslice⟩ | ⟨hge,rfl⟩
    · rw [logEntries, sliceFrom, w.base, w.log, List.drop_drop] at hslice
      split_ifs at hslice with hr
      rw [← Except.ok.inj hslice]
      congr 1
      omega
    · exact (List.drop_eq_nil_of_le (by omega)).symm

/-- What an accepted request leaves of a follower of its term. -/
structure Stored (g : List (LogEntry C)) (b : ℕ) (commit : ℤ) (rf rf' : Raft C) : Prop where
  window : Window g b rf'
  term : rf'.currentTerm = rf.currentTerm
  voted : rf'.votedFor = rf.votedFor
  committed : rf'.commitIndex =
    if commit > rf.commitIndex then min commit ((g.length:ℤ)-1) else rf.commitIndex

theorem append_entries_stored (rf : Raft C) (g l : List (LogEntry C)) (b p : ℕ) (commit : ℤ)
    (args : AppendEntriesArgs C) (w : Window g b rf) (hc : Cut l rf.currentTerm commit args p)
    (hidx : Indexed l) (hbp : b ≤ p) (hpg : p ≤ g.length) (hstamp : stampAt g p = stampAt l p)
    (hagree : ∀ k, k ≤ g.length → k ≤ l.length → stampAt g k = stampAt l k →
      g.take k = l.take k) :
    ∃ rf', appendEntries rf args = .ok (rf', { term := rf.currentTerm, success := true }) ∧
      Stored (merge g l) b commit rf rf' := by
  have hsame : handleHigherTerm rf args.term = rf := by
    rw [hc.term, handleHigherTerm, if_neg (lt_irrefl _)]
  have w1 := prepared_window g b rf w args.term
  obtain ⟨-,-,hcommit,-,-,hterm⟩ := prepared_fields rf args.term
  have hvoted : (stopCandidacy (handleHigherTerm rf args.term) args.term).votedFor =
      rf.votedFor := by
    rw [hsame, stopCandidacy]
    split_ifs <;> rfl
  rw [hc.term, max_self, ← hc.term] at hterm
  generalize hrf1 : stopCandidacy (handleHigherTerm rf args.term) args.term = rf1 at *
  have htake := hagree p hpg hc.bound hstamp
  have hdrop := hc.entries.symm
  obtain ⟨rf2,hrf2⟩ := append_local_reads g l b p w1 hidx hagree args.entries hbp hpg hc.bound
    htake hdrop
  have hmerged := merged_window g l b p w1 hbp hc.bound htake
  have hkept : Window (merge g l) b rf2 ∧ rf2.currentTerm = rf1.currentTerm ∧
      rf2.votedFor = rf1.votedFor ∧ rf2.commitIndex = rf1.commitIndex := by
    rcases append_local g l b p w1 hidx hagree args.entries hbp hpg hc.bound htake hdrop hrf2 with
      ⟨rfl,-⟩ | rfl
    · exact ⟨hmerged,rfl,rfl,rfl⟩
    · exact ⟨window_of _ b hmerged rfl rfl rfl rfl,rfl,rfl,rfl⟩
  obtain ⟨w2,ht2,hv2,hc2⟩ := hkept
  have hacc := append_entries_accepted rf rf1 rf2 args hrf1.symm g b p w1 hc.prev hbp
    ⟨hpg,hstamp.trans hc.prevTerm.symm⟩ (by omega) hrf2
  rw [hterm, hc.term, hc.commit] at hacc
  refine ⟨_,hacc,?_⟩
  rw [followCommit, hc2, hcommit, last_log_index w2]
  split_ifs with hup
  · exact ⟨window_of _ b w2 rfl rfl rfl rfl,by rw [← hc.term, ← hterm]; exact ht2,
      hv2.trans hvoted,by rw [if_pos hup]⟩
  · exact ⟨w2,by rw [← hc.term, ← hterm]; exact ht2,hv2.trans hvoted,by
      rw [if_neg hup, hc2, hcommit]⟩

theorem has_term_entry (rf : Raft C) (x : ℤ) (t : ℕ) (h : entryHasTerm rf x t = .ok true) :
    ∃ e, logEntry rf x = .ok e ∧ e.term = t := by
  rw [entryHasTerm] at h
  split_ifs at h with hincl hlast
  · rw [logEntry, if_pos hincl]
    exact ⟨_,rfl,(by simpa using h : t = rf.lastIncludedTerm).symm⟩
  · cases h
  · rw [bind_ok] at h
    obtain ⟨e,he,h⟩ := h
    exact ⟨e,he,by simpa [pure, Except.pure] using h⟩

theorem accepted_entry (rf rf' : Raft C) (args : AppendEntriesArgs C) (reply : AppendEntriesReply)
    (hterm : args.term = rf.currentTerm) (hprev : rf.lastIncludedIndex ≤ args.prevLogIndex)
    (h : appendEntries rf args = .ok (rf',reply)) (hok : reply.success = true) :
    ∃ e, logEntry rf args.prevLogIndex = .ok e ∧ e.term = args.prevLogTerm := by
  have hsame : ∀ x, logEntry (stopCandidacy (handleHigherTerm rf args.term) args.term) x =
      logEntry rf x := by
    intro x
    rw [hterm, handleHigherTerm, if_neg (lt_irrefl _), stopCandidacy]
    split_ifs <;> rfl
  have hincl := (prepared_fields rf args.term).1
  rcases (append_entries_outcome args reply _ rfl h).2 with ⟨hskip,-,-⟩ | ⟨-,-,hmatch,-⟩ | ⟨-,hf,-⟩
  · omega
  · rw [← hsame]
    exact has_term_entry _ _ _ hmatch
  · rw [hok] at hf
    cases hf

/-- A follower that has the leader's term at one position shows a log that
begins with what the leader's log has below the snapshot. -/
theorem matching_window (rf : Raft C) (l : List (LogEntry C)) (b p : ℕ) (hw : WellFormed rf)
    (hb : rf.baseIndex = b) (hm : LogMatching l rf) (hbp : b ≤ p) (hpl : p ≤ l.length)
    (e : LogEntry C) (he : logEntry rf ((p:ℤ)-1) = .ok e) (hterm : e.term = stampAt l p) :
    Window (l.take b ++ rf.log) b rf := by
  have hincl := hw.base
  have hlen : (l.take b).length = b := by rw [List.length_take]; omega
  refine ⟨hb,by omega,by rw [List.length_append]; omega,?_,?_⟩
  · rw [List.drop_append_of_le_length (by omega), List.drop_eq_nil_of_le (by omega),
      List.nil_append]
  · rw [stamp_at_below _ (l.take b ++ rf.log) b (List.prefix_append _ _) (by omega) |>.symm,
      stamp_at_take l b b le_rfl]
    have hplace : ∀ x : ℤ, x = rf.lastIncludedIndex →
        logEntry rf x = .ok ⟨x,rf.lastIncludedTerm,none⟩ := fun x hx => if_pos hx
    cases b with
    | zero =>
      have h0 : rf.lastIncludedIndex = -1 := by omega
      exact hw.whole h0
    | succ j =>
      obtain ⟨d',hd',hs'⟩ := getElem_stamp_at l j (by omega)
      obtain ⟨k,rfl⟩ : ∃ k, p = k+1 := ⟨p-1,by omega⟩
      obtain ⟨d,hd,hs⟩ := getElem_stamp_at l k hpl
      have hk : ((k+1:ℕ):ℤ)-1 = k := by omega
      rw [hk] at he
      rw [← hs']
      exact (hm k d e hd he (hterm.trans hs.symm) j (by omega) d' _ hd'
        (hplace j (by omega))).1

theorem matching_agrees (rf : Raft C) (l : List (LogEntry C)) (b : ℕ) (hm : LogMatching l rf)
    (w : Window (l.take b ++ rf.log) b rf) (hbl : b ≤ l.length) :
    ∀ k, k ≤ (l.take b ++ rf.log).length → k ≤ l.length →
      stampAt (l.take b ++ rf.log) k = stampAt l k → (l.take b ++ rf.log).take k = l.take k := by
  intro k hkg hkl hstamp
  have hlen : (l.take b).length = b := by rw [List.length_take]; omega
  generalize hg : l.take b ++ rf.log = g at *
  apply List.ext_getElem?
  intro j
  rw [List.getElem?_take, List.getElem?_take]
  split_ifs with hjk
  · by_cases hjb : j < b
    · rw [← hg, List.getElem?_append_left (by omega), List.getElem?_take, if_pos hjb]
    · obtain ⟨i,rfl⟩ : ∃ i, k = i+1 := ⟨k-1,by omega⟩
      obtain ⟨e,he,hes⟩ := getElem_stamp_at g i hkg
      obtain ⟨d,hd,hds⟩ := getElem_stamp_at l i hkl
      have hterm : e.term = d.term := hes.trans (hstamp.trans hds.symm)
      have hgj : g[j]? = some g[j] := List.getElem?_eq_getElem (by omega)
      have hlj : l[j]? = some l[j] := List.getElem?_eq_getElem (by omega)
      have hincl := w.included
      have hsame := (hm i d e hd (log_entry_get w i e (by omega) he) hterm j (by omega) _ _ hlj
        (log_entry_get w j _ (by omega) hgj)).2 (by omega)
      rw [hgj, hlj, hsame]
  · rfl

/-- A request that is cut from a part of what a follower holds changes
nothing that the follower keeps. -/
theorem stale_request (rf : Raft C) (g l : List (LogEntry C)) (b p : ℕ) (commit : ℤ)
    (args : AppendEntriesArgs C) (w : Window g b rf) (hc : Cut l rf.currentTerm commit args p)
    (hidx : Indexed l) (hbp : b ≤ p) (hlg : l <+: g) (hcommit : commit ≤ rf.commitIndex) :
    ∃ rf', appendEntries rf args = .ok (rf', { term := rf.currentTerm, success := true }) ∧
      Window g b rf' ∧ rf'.currentTerm = rf.currentTerm ∧ rf'.votedFor = rf.votedFor ∧
      rf'.commitIndex = rf.commitIndex := by
  have hle := hlg.length_le
  have hpl := hc.bound
  obtain ⟨rf',he,hs⟩ := append_entries_stored rf g l b p commit args w hc hidx hbp (by omega)
    (stamp_at_below l g p hlg hpl).symm (fun k _ hkl _ => (take_of_below l g k hlg hkl).symm)
  have hcom := hs.committed
  rw [if_neg (by omega)] at hcom
  rcases merge_cases g l with ⟨-,hm⟩ | ⟨hn,-⟩
  · exact ⟨rf',he,hm ▸ hs.window,hs.term,hs.voted,hcom⟩
  · exact absurd hlg hn

theorem stale_requests (k : ℕ) (rf : Raft C) (g l : List (LogEntry C)) (b p : ℕ) (commit : ℤ)
    (args : AppendEntriesArgs C) (w : Window g b rf) (hc : Cut l rf.currentTerm commit args p)
    (hidx : Indexed l) (hbp : b ≤ p) (hlg : l <+: g) (hcommit : commit ≤ rf.commitIndex) :
    ∃ rf' replies, deliver rf (List.replicate k args) = .ok (rf', replies) ∧
      replies.length = k ∧ (∀ r ∈ replies, r.success = true) ∧ rf'.log = rf.log ∧
      rf'.commitIndex = rf.commitIndex ∧ rf'.currentTerm = rf.currentTerm ∧
      rf'.votedFor = rf.votedFor ∧ rf'.lastIncludedIndex = rf.lastIncludedIndex := by
  induction k generalizing rf with
  | zero => exact ⟨rf,[],rfl,rfl,by simp,rfl,rfl,rfl,rfl,rfl⟩
  | succ k ih =>
    obtain ⟨rf1,he,w1,ht,hv,hcom⟩ := stale_request rf g l b p commit args w hc hidx hbp hlg hcommit
    obtain ⟨rf2,replies,hrest,hlen,hsucc,h1,h2,h3,h4,h5⟩ := ih rf1 w1 (by rw [ht]; exact hc)
      (by omega)
    refine ⟨rf2,{ term := rf.currentTerm, success := true }::replies,?_,congrArg (·+1) hlen,?_,?_,
      h2.trans hcom,h3.trans ht,h4.trans hv,?_⟩
    · rw [List.replicate_succ, deliver, he, ok_bind]
      simp only [hrest, ok_bind]
      rfl
    · intro r hr
      rcases List.mem_cons.mp hr with rfl | hr
      · rfl
      · exact hsucc r hr
    · rw [h1, w1.log, w.log]
    · rw [h5, w1.included, w.included]

/-- Without a conflict the entries that the follower has beyond the leader's
log stay. -/
theorem kept_beyond (rf rf' : Raft C) (g l : List (LogEntry C)) (b p : ℕ) (hbp : b ≤ p)
    (hpl : p ≤ l.length) (hpg : p ≤ g.length) (hidx : Indexed l) (w : Window g b rf)
    (w' : Window (merge g l) b rf') (hstamp : stampAt g p = stampAt l p)
    (hagree : ∀ k, k ≤ g.length → k ≤ l.length → stampAt g k = stampAt l k → g.take k = l.take k)
    (hclean : ∀ d ∈ l.drop p, ∀ e, logEntry rf d.index = .ok e → e.term = d.term) (x : ℤ)
    (hx : (l.length:ℤ)-1 < x) : logEntry rf' x = logEntry rf x := by
  have hsame : ∀ y : ℕ, l.length ≤ y → (merge g l)[y]? = g[y]? := by
    intro y hy
    rcases merge_cases g l with ⟨-,hm⟩ | ⟨hn,hm⟩
    · rw [hm]
    · have hshort : g.length < l.length := by
        by_contra hc
        have hend : stampAt g l.length = stampAt l l.length := by
          rcases Nat.eq_or_lt_of_le hpl with rfl | hlt
          · exact hstamp
          · obtain ⟨k,hk⟩ : ∃ k, l.length = k+1 := ⟨l.length-1,by omega⟩
            obtain ⟨d,hd,hds⟩ := getElem_stamp_at l k (by omega)
            obtain ⟨e,he,hes⟩ := getElem_stamp_at g k (by omega)
            have hmem : d ∈ l.drop p :=
              List.mem_iff_getElem?.mpr ⟨k-p,by rw [List.getElem?_drop, ← hd]; congr 1; omega⟩
            have hterm := hclean d hmem e (by
              rw [hidx k d hd]
              exact log_entry_get w k e (by omega) he)
            rw [hk, ← hds, ← hes]
            exact hterm
        have htake := hagree l.length (by omega) le_rfl hend
        rw [List.take_length] at htake
        exact hn (htake ▸ List.take_prefix _ _)
      rw [hm, List.getElem?_eq_none hy, List.getElem?_eq_none (by omega)]
  obtain ⟨y,rfl⟩ : ∃ y : ℕ, x = y := ⟨x.toNat,by omega⟩
  rw [log_entry_beyond w' y (by omega), log_entry_beyond w y (by omega), load, load,
    Int.toNat_natCast, hsame y (by omega)]

/-- A follower that accepts a request shows a whole log that agrees with the
leader's at the request's position, and is left with the merge of the two. -/
theorem accepted_stored (follower follower' : Raft C) (l : List (LogEntry C)) (p : ℕ) (commit : ℤ)
    (args : AppendEntriesArgs C) (reply : AppendEntriesReply)
    (hc : Cut l follower.currentTerm commit args p) (hidx : Indexed l) (hwell : WellFormed follower)
    (hmatch : LogMatching l follower) (hprev : follower.lastIncludedIndex ≤ args.prevLogIndex)
    (hhandled : appendEntries follower args = .ok (follower',reply))
    (hok : reply.success = true) :
    ∃ g b, Window g b follower ∧ b ≤ p ∧ p ≤ g.length ∧ stampAt g p = stampAt l p ∧
      (∀ k, k ≤ g.length → k ≤ l.length → stampAt g k = stampAt l k → g.take k = l.take k) ∧
      Stored (merge g l) b commit follower follower' := by
  have hbase := hwell.base
  have hincluded := hwell.included
  obtain ⟨b,hb⟩ : ∃ b : ℕ, follower.baseIndex = b := ⟨follower.baseIndex.toNat,by omega⟩
  have hbp : b ≤ p := by
    rw [hc.prev] at hprev
    omega
  obtain ⟨e,he,het⟩ := accepted_entry follower follower' args reply hc.term hprev hhandled hok
  rw [hc.prev] at he
  have w := matching_window follower l b p hwell hb hmatch hbp hc.bound e he
    (het.trans hc.prevTerm)
  have hagree := matching_agrees follower l b hmatch w (hbp.trans hc.bound)
  obtain ⟨q,hq,-,hpg,hps⟩ := log_entry_term w _ e he
  obtain rfl : q = p := by omega
  have hstamp := hps.symm.trans (het.trans hc.prevTerm)
  obtain ⟨rf',hrf',hs⟩ := append_entries_stored follower _ l b q _ args w hc hidx hbp hpg hstamp
    hagree
  rw [hrf', Except.ok.injEq, Prod.mk.injEq] at hhandled
  obtain ⟨rfl,-⟩ := hhandled
  exact ⟨_,b,w,hbp,hpg,hstamp,hagree,hs⟩

/-- Requests of one leader in one term, the first not built later than the
second. A follower that accepted the second one agrees with the leader up to
its end, keeps what it has beyond if no entry conflicts and commits nothing
beyond. The first one is then accepted any number of times and changes
nothing. -/
theorem stale_requests_harmless (leader₁ leader₂ follower follower' : Raft C)
    (log₁ log₂ : List (LogEntry C)) (b₁ b₂ T server₁ server₂ : ℕ) (A₁ A₂ : AppendEntriesArgs C)
    (reply : AppendEntriesReply) (hlog₁ : Window log₁ b₁ leader₁) (hlog₂ : Window log₂ b₂ leader₂)
    (hindexed : Indexed log₂) (hgrows : log₁ <+: log₂)
    (hcommit : leader₁.commitIndex ≤ leader₂.commitIndex)
    (hcommitted : leader₂.commitIndex ≤ lastLogIndex leader₂)
    (hA₁ : appendMissingEntries leader₁ T server₁ = .ok (some (.appendEntries A₁)))
    (hA₂ : appendMissingEntries leader₂ T server₂ = .ok (some (.appendEntries A₂)))
    (hwell : WellFormed follower) (hterm : follower.currentTerm = T)
    (hmatch : LogMatching log₂ follower) (hprev₁ : follower.lastIncludedIndex ≤ A₁.prevLogIndex)
    (hprev₂ : follower.lastIncludedIndex ≤ A₂.prevLogIndex)
    (hhandled : appendEntries follower A₂ = .ok (follower',reply)) (hok : reply.success = true) :
    (∀ k : ℕ, follower'.lastIncludedIndex < k → k ≤ A₂.prevLogIndex + A₂.entries.length →
        ∃ e, log₂[k]? = some e ∧ logEntry follower' k = .ok e) ∧
      ((∀ d ∈ A₂.entries, ∀ e, logEntry follower d.index = .ok e → e.term = d.term) →
        ∀ x, A₂.prevLogIndex + A₂.entries.length < x →
          logEntry follower' x = logEntry follower x) ∧
      (A₂.prevLogIndex + A₂.entries.length < follower'.commitIndex →
        follower'.commitIndex = follower.commitIndex) ∧
      ∀ times, ∃ follower'' replies,
        deliver follower' (List.replicate times A₁) = .ok (follower'', replies) ∧
        replies.length = times ∧ (∀ r ∈ replies, r.success = true) ∧
        follower''.log = follower'.log ∧ follower''.commitIndex = follower'.commitIndex ∧
        follower''.currentTerm = follower'.currentTerm ∧
        follower''.votedFor = follower'.votedFor ∧
        follower''.lastIncludedIndex = follower'.lastIncludedIndex := by
  subst hterm
  obtain ⟨p₁,hc₁⟩ := request_cut leader₁ log₁ b₁ _ server₁ hlog₁ A₁ hA₁
  obtain ⟨p,hc₂⟩ := request_cut leader₂ log₂ b₂ _ server₂ hlog₂ A₂ hA₂
  obtain ⟨g,b,w,hb₂,hpg,hstamp,hagree,hs⟩ := accepted_stored follower follower' log₂ p _ A₂ reply
    hc₂ hindexed hwell hmatch hprev₂ hhandled hok
  have hb₁ : b ≤ p₁ := by
    rw [w.included, hc₁.prev] at hprev₁
    omega
  have hend := cut_end _ _ _ _ _ hc₂
  have hcommit' := hs.committed
  have hlast := last_log_index hlog₂
  have hlong := (merge_contains g log₂).length_le
  refine ⟨?_,?_,?_,?_⟩
  · intro k hk hkend
    have hincl := hs.window.included
    have hget : log₂[k]? = some log₂[k] := List.getElem?_eq_getElem (by omega)
    exact ⟨_,hget,log_entry_get hs.window k _ (by omega) (merge_get g log₂ k _ hget)⟩
  · intro hclean x hx
    rw [hc₂.entries] at hclean
    exact kept_beyond follower follower' g log₂ b p hb₂ hc₂.bound hpg hindexed w hs.window hstamp
      hagree hclean x (by omega)
  · intro hbeyond
    split_ifs at hcommit' with hup
    · omega
    · exact hcommit'
  · intro times
    have hidx₁ : Indexed log₁ := by
      rw [List.prefix_iff_eq_take.mp hgrows]
      exact indexed_take log₂ hindexed log₁.length
    have hc : Cut log₁ follower'.currentTerm leader₁.commitIndex A₁ p₁ := by
      rw [hs.term]
      exact hc₁
    apply stale_requests times follower' (merge g log₂) log₁ b p₁ leader₁.commitIndex A₁ hs.window
      hc hidx₁ hb₁ (hgrows.trans (merge_contains g log₂))
    split_ifs at hcommit' with hup <;> omega

/-- The leader with the first `k` of its entries, all of them committed. -/
def growingLeader (k : ℕ) : Raft ℕ :=
  { make 3 0 {} with
    currentTerm := 2
    state := .leader
    log := [⟨0,1,some 1⟩,⟨1,2,some 2⟩,⟨2,2,some 3⟩].take k
    commitIndex := (k:ℤ)-1
    nextIndex := [0,1,1] }

def conflictingFollower : Raft ℕ :=
  { make 3 1 {} with
    currentTerm := 2
    log := [⟨0,1,some 1⟩,⟨1,1,some 9⟩] }

theorem stale_requests_harmless_conflict : ∃ A₁ A₂ follower' reply,
    appendMissingEntries (growingLeader 2) 2 1 = .ok (some (.appendEntries A₁)) ∧
    appendMissingEntries (growingLeader 3) 2 1 = .ok (some (.appendEntries A₂)) ∧
    appendEntries conflictingFollower A₂ = .ok (follower',reply) ∧ follower'.log.length = 3 ∧
    ∀ times, ∃ follower'' replies,
      deliver follower' (List.replicate times A₁) = .ok (follower'', replies) ∧
      replies.length = times ∧ follower''.log = follower'.log := by
  have hmatch : LogMatching (growingLeader 3).log conflictingFollower := by
    intro k d e hd he ht j hj d' e' hd' he'
    have hk : k = 0 := by
      match k with
      | 0 => rfl
      | 1 =>
        obtain rfl := Option.some.inj hd
        obtain rfl := Except.ok.inj he
        cases ht
      | 2 => cases he
      | k+3 => cases hd
    obtain rfl : j = 0 := by omega
    obtain rfl := Option.some.inj hd'
    obtain rfl := Except.ok.inj he'
    exact ⟨rfl,fun _ => rfl⟩
  have hindexed : Indexed (growingLeader 3).log := by
    intro k e he
    match k with
    | 0 | 1 | 2 =>
      obtain rfl := Option.some.inj he
      rfl
    | k+3 => cases he
  have h := stale_requests_harmless (growingLeader 2) (growingLeader 3) conflictingFollower _
    (growingLeader 2).log (growingLeader 3).log 0 0 2 1 1 _ _ _ ⟨rfl,rfl,by decide,rfl,rfl⟩
    ⟨rfl,rfl,by decide,rfl,rfl⟩ hindexed (by decide) (by decide) (by decide) rfl rfl
    ⟨rfl,by decide,fun _ => rfl⟩ rfl hmatch (by decide) (by decide) rfl rfl
  refine ⟨_,_,_,_,rfl,rfl,rfl,rfl,fun times => ?_⟩
  obtain ⟨follower'',replies,hdeliver,hlen,-,hlog,-⟩ := h.2.2.2 times
  exact ⟨follower'',replies,hdeliver,hlen,hlog⟩

end Mitdist.StaleAppends
