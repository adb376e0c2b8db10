import Mitdist.LogRepresentation

/-!
# Repairing the log of a follower

A round between a leader and a follower is a request, its handling and the
handling of its reply. A rejected round moves the leader's next index for the
follower by one step of the search of `StampedSearch`, an accepted one leaves
the follower with all of the leader's log.
-/

set_option autoImplicit false

namespace Mitdist.LogRepair
open Mitdist.RaftPeer Mitdist.RaftHandlers Mitdist.RaftWindow Mitdist.RaftCluster
open Mitdist.RaftOutcomes Mitdist.StampedLog Mitdist.StampedSearch Mitdist.LeaderProtocol
open Mitdist.RaftRelation Mitdist.RaftSections Mitdist.RaftReplication
open Mitdist.RaftHints Mitdist.RaftReads Mitdist.RaftSafety Mitdist.LogRepresentation
open Mitdist.TransitionSystem

variable {C : Type} {n L F T b q x : ℕ} {l f : List (LogEntry C)} {c : Cluster C}

def roundEvents (c : Cluster C) (L F : ℕ) : List (Event C) :=
  [.appendMissingEntries L (c.servers L).currentTerm F, .appendEntries c.appendCalls.length,
    .handleAppendReply c.appendCalls.length]

/-- One round, and whether the follower answered with success. -/
def round (n L F : ℕ) (c : Cluster C) : Option (Cluster C × Bool) := do
  let c' ← exec n c (roundEvents c L F)
  let call ← c'.appendCalls[c.appendCalls.length]?
  let reply ← call.reply
  some (c', reply.success)

/-- A number of rounds, all of them rejected. -/
def rejectedRounds (n L F : ℕ) : ℕ → Cluster C → Option (Cluster C)
  | 0, c => some c
  | k+1, c => do
    let (c', success) ← round n L F c
    if success then none else rejectedRounds n L F k c'

/-- What the two servers of a round are left with. -/
def afterRound (c : Cluster C) (L F : ℕ) (args : AppendEntriesArgs C) (reply : AppendEntriesReply)
    (leader follower : Raft C) : Cluster C :=
  { withServer (withServer c F follower) L leader with
    appendCalls := c.appendCalls ++
      [⟨L,c.epoch L,F,args,some reply,true⟩] }

theorem after_leader (args : AppendEntriesArgs C) (reply : AppendEntriesReply)
    (leader follower : Raft C) :
    (afterRound c L F args reply leader follower).servers L = leader :=
  Function.update_self ..

theorem after_follower (hne : F ≠ L) (args : AppendEntriesArgs C) (reply : AppendEntriesReply)
    (leader follower : Raft C) :
    (afterRound c L F args reply leader follower).servers F = follower :=
  (Function.update_of_ne hne _ _).trans (Function.update_self ..)

theorem round_sections (args : AppendEntriesArgs C) (reply : AppendEntriesReply)
    (leader follower : Raft C) (hL : L < n) (hF : F < n) (hne : F ≠ L)
    (h1 : appendMissingEntries (c.servers L) (c.servers L).currentTerm F =
      .ok (some (.appendEntries args)))
    (h2 : appendEntries (c.servers F) args = .ok (follower, reply))
    (h3 : handleAppendReply (c.servers L) F args reply = .ok leader) :
    round n L F c = some (afterRound c L F args reply leader follower, reply.success) := by
  have hother : Function.update c.servers F follower L = c.servers L :=
    Function.update_of_ne hne.symm _ _
  simp [round, roundEvents, RaftCluster.exec, TransitionSystem.exec, step, hL, hF, hne, h1, send,
    h2, h3, Except.toOption, withServer, hother, afterRound]

/-- The two servers between rounds: the logs are as they were, the leader's
shown from `b` on and the follower's from `q` on, and the leader is about to
send what follows the position `x`. -/
structure Facing (L F T : ℕ) (l f : List (LogEntry C)) (b q x : ℕ) (c : Cluster C) : Prop where
  leads : (c.servers L).state = .leader
  term : (c.servers L).currentTerm = T
  behind : (c.servers F).currentTerm ≤ T
  leader : Window l b (c.servers L)
  follower : Window f q (c.servers F)
  next : (c.servers L).nextIndex[F]? = some (x:ℤ)
  matched : F < (c.servers L).matchIndex.length

/-- What the leader sends from the position `x` on. -/
def request (rf : Raft C) (l : List (LogEntry C)) (x : ℕ) : AppendEntriesArgs C where
  term := rf.currentTerm
  leaderId := rf.me
  prevLogIndex := (x:ℤ)-1
  prevLogTerm := stampAt l x
  entries := l.drop x
  leaderCommitIndex := rf.commitIndex

theorem request_end (rf : Raft C) (hx : x ≤ l.length) :
    (request rf l x).prevLogIndex + 1 + (request rf l x).entries.length = l.length := by
  show (x:ℤ)-1+1+(l.drop x).length = l.length
  rw [List.length_drop]
  omega

theorem request_sent (h : Facing L F T l f b q x c) (hb : b ≤ x) (hx : x ≤ l.length) :
    appendMissingEntries (c.servers L) (c.servers L).currentTerm F =
      .ok (some (.appendEntries (request (c.servers L) l x))) := by
  rw [append_missing_entries h.leader F x h.leads hx h.next, if_neg (not_lt.mpr hb)]
  rfl

theorem prepared_term (h : Facing L F T l f b q x c) :
    (stopCandidacy (handleHigherTerm (c.servers F) (c.servers L).currentTerm)
      (c.servers L).currentTerm).currentTerm = (c.servers L).currentTerm := by
  have hterm := (prepared_fields (c.servers F) (c.servers L).currentTerm).2.2.2.2.2
  rw [hterm, h.term]
  exact max_eq_right h.behind

theorem facing_after (hne : F ≠ L) (args : AppendEntriesArgs C) (reply : AppendEntriesReply)
    (leader follower : Raft C) (hleads : leader.state = .leader) (hterm : leader.currentTerm = T)
    (hbehind : follower.currentTerm ≤ T) (wl : Window l b leader) (wf : Window f q follower)
    (hnext : leader.nextIndex[F]? = some (x:ℤ)) (hmatched : F < leader.matchIndex.length) :
    Facing L F T l f b q x (afterRound c L F args reply leader follower) := by
  constructor
  · rwa [after_leader]
  · rwa [after_leader]
  · rwa [after_follower hne]
  · rwa [after_leader]
  · rwa [after_follower hne]
  · rwa [after_leader]
  · rwa [after_leader]

/-- A rejected round moves the next index to where the hint points. -/
theorem facing_rejected (h : Facing L F T l f b q x c) (hL : L < n) (hF : F < n) (hne : F ≠ L)
    (hb : b ≤ x) (hq : q ≤ x) (hx : x ≤ l.length) (hno : ¬ Matches l f x) (y : ℕ)
    (hy : retry l b x (hint f q x) = (y:ℤ)) :
    ∃ c', round n L F c = some (c', false) ∧ Facing L F T l f b q y c' := by
  have hnext := (List.getElem?_eq_some_iff.mp h.next).1
  have w := prepared_window f q (c.servers F) h.follower (c.servers L).currentTerm
  have hterm := prepared_term h
  generalize hrf1 : stopCandidacy (handleHigherTerm (c.servers F) (c.servers L).currentTerm)
    (c.servers L).currentTerm = rf1 at w hterm
  have h2 := append_entries_rejected (c.servers F) rf1 (request (c.servers L) l x) hrf1.symm f q x
    w rfl hq hno
  have h3 := append_reply_rejected h.leader F (request (c.servers L) l x)
    { term := rf1.currentTerm, success := false, logInfo := hint f q x } x h.leads rfl hterm.le rfl
    hnext rfl hx
  refine ⟨_,round_sections _ _ _ _ hL hF hne (request_sent h hb hx) h2 h3,?_⟩
  refine facing_after hne _ _ _ _ h.leads h.term (hterm.trans h.term).le
    (window_of l b h.leader rfl rfl rfl rfl) w ?_ h.matched
  show ((c.servers L).nextIndex.set F (retry l b x (hint f q x)))[F]? = _
  rw [List.getElem?_set_self hnext, hy]

theorem follow_commit_window (m : List (LogEntry C)) (q : ℕ) (rf : Raft C) (w : Window m q rf)
    (leaderCommitIndex : ℤ) : Window m q (followCommit rf leaderCommitIndex) ∧
      (followCommit rf leaderCommitIndex).currentTerm = rf.currentTerm := by
  rw [followCommit]
  split_ifs
  · exact ⟨window_of m q w rfl rfl rfl rfl,rfl⟩
  · exact ⟨w,rfl⟩

/-- An accepted round stores all of the leader's log. -/
theorem facing_accepted (h : Facing L F T l f b q x c) (hL : L < n) (hF : F < n) (hne : F ≠ L)
    (hb : b ≤ x) (hq : q ≤ x) (hx : x ≤ l.length) (hyes : Matches l f x) (hidx : Indexed l)
    (hagree : ∀ k, k ≤ f.length → k ≤ l.length → stampAt f k = stampAt l k →
      f.take k = l.take k) :
    ∃ c', round n L F c = some (c', true) ∧ (c'.servers L).matchIndex[F]? =
      some ((l.length:ℤ)-1) ∧ Facing L F T l (merge f l) b q l.length c' := by
  have hnext := (List.getElem?_eq_some_iff.mp h.next).1
  have w := prepared_window f q (c.servers F) h.follower (c.servers L).currentTerm
  have hterm := prepared_term h
  generalize hrf1 : stopCandidacy (handleHigherTerm (c.servers F) (c.servers L).currentTerm)
    (c.servers L).currentTerm = rf1 at w hterm
  have htake := hagree x hyes.1 hx hyes.2
  obtain ⟨rf2,hrf2⟩ := append_local_reads f l q x w hidx hagree (l.drop x) hq hyes.1 hx htake rfl
  have hmerged := merged_window f l q x w hq hx htake
  have w2 : Window (merge f l) q rf2 ∧ rf2.currentTerm = rf1.currentTerm := by
    rcases append_local f l q x w hidx hagree _ hq hyes.1 hx htake rfl hrf2 with ⟨rfl,-⟩ | rfl
    · exact ⟨hmerged,rfl⟩
    · exact ⟨window_of _ q hmerged rfl rfl rfl rfl,rfl⟩
  have h2 := append_entries_accepted (c.servers F) rf1 rf2 (request (c.servers L) l x) hrf1.symm
    f q x w rfl hq hyes hterm.not_gt hrf2
  have h3 := append_reply_accepted (c.servers L) F (request (c.servers L) l x)
    { term := rf1.currentTerm, success := true } h.leads rfl hterm.le rfl hnext h.matched
  rw [request_end (c.servers L) hx] at h3
  refine ⟨_,round_sections _ _ _ _ hL hF hne (request_sent h hb hx) h2 h3,?_,?_⟩
  · rw [after_leader]
    exact List.getElem?_set_self h.matched
  · have w3 := follow_commit_window (merge f l) q rf2 w2.1 (c.servers L).commitIndex
    refine facing_after hne _ _ _ _ h.leads h.term ?_ (window_of l b h.leader rfl rfl rfl rfl) w3.1
      (List.getElem?_set_self hnext) ?_
    · exact (w3.2.trans (w2.2.trans (hterm.trans h.term))).le
    · show F < ((c.servers L).matchIndex.set F _).length
      rw [List.length_set]
      exact h.matched

/-- A follower that has taken over the leader's log retains the leader's
entries wherever both retain any. -/
theorem facing_agrees (h : Facing L F T l (merge f l) b q x c) (k : ℕ) (hb : b ≤ k) (hq : q ≤ k)
    (hk : k < l.length) :
    logEntry (c.servers L) k = .ok l[k] ∧ logEntry (c.servers F) k = .ok l[k] := by
  have hget := List.getElem?_eq_getElem hk
  exact ⟨log_entry_get h.leader k _ hb hget,
    log_entry_get h.follower k _ hq (merge_get f l k _ hget)⟩

/-- If neither server has discarded anything, a rejected round is one step of
the search. -/
theorem round_rejected (h : Facing L F T l f 0 0 x c) (hL : L < n) (hF : F < n) (hne : F ≠ L)
    (hx : x ≤ l.length) (hno : ¬ Matches l f x) :
    ∃ c', round n L F c = some (c', false) ∧ Facing L F T l f 0 0 (backoff l f x) c' :=
  facing_rejected h hL hF hne (Nat.zero_le x) (Nat.zero_le x) hx hno (backoff l f x)
    (retry_backoff l f x hno)

theorem rejected_rounds (hL : L < n) (hF : F < n) (hne : F ≠ L) (k x : ℕ) (c : Cluster C)
    (h : Facing L F T l f 0 0 x c) (hx : x ≤ l.length)
    (hno : ∀ i < k, ¬ Matches l f ((backoff l f)^[i] x)) :
    ∃ c', rejectedRounds n L F k c = some c' ∧ (backoff l f)^[k] x ≤ l.length ∧
      Facing L F T l f 0 0 ((backoff l f)^[k] x) c' := by
  induction k generalizing x c with
  | zero => exact ⟨c,rfl,hx,h⟩
  | succ k ih =>
    have hmiss := hno 0 (by omega)
    have hlt := backoff_lt l f x hmiss
    obtain ⟨c',hround,h'⟩ := round_rejected h hL hF hne hx hmiss
    obtain ⟨d,hd,hrest⟩ := ih (backoff l f x) c' h' (by omega) (fun i hi => hno (i+1) (by omega))
    refine ⟨d,?_,hrest⟩
    rw [rejectedRounds, hround]
    exact hd

theorem rooted_shares (a : Past C) (hl : Rooted a l) (hf : Rooted a f) : Shares l f := by
  intro q x hqx hql hxf hq heq
  obtain ⟨k,rfl⟩ : ∃ k, q = k+1 := ⟨q-1,by omega⟩
  obtain ⟨j,rfl⟩ : ∃ j, x = j+1 := ⟨x-1,by omega⟩
  obtain ⟨d,hd,hds⟩ := getElem_stamp_at l k hql
  obtain ⟨e,he,hes⟩ := getElem_stamp_at f j hxf
  have hld := (hl k d hd).2
  have hfe := (hf j e he).2
  rw [hds, heq] at hld
  rw [hes] at hfe
  rw [Nat.add_sub_cancel, ← stamp_at_take l (k+1) k (by omega),
    ← stamp_at_take f (j+1) k (by omega),
    stamp_at_below _ _ k hld (by rw [List.length_take]; omega),
    stamp_at_below _ _ k hfe (by rw [List.length_take]; omega)]

/-- From every reachable state in which a leader and another server of no
later term have discarded nothing, rounds between the two are rejected at
most once for every term in the other server's log and once more, and at most
once for every index of the leader's log. The round after them is accepted,
and leaves the server with the leader's log. -/
theorem repair_converges (n : ℕ) (es : List (Event C)) (c : Cluster C) (L F T : ℕ)
    (hes : exec n (RaftCluster.initial C n) es = some c) (hL : L < n) (hF : F < n) (hne : F ≠ L)
    (hlead : (c.servers L).state = .leader) (hterm : (c.servers L).currentTerm = T)
    (hbehind : (c.servers F).currentTerm ≤ T) (hwholeL : (c.servers L).lastIncludedIndex = -1)
    (hwholeF : (c.servers F).lastIncludedIndex = -1) :
    ∃ k c' c'', rejectedRounds n L F k c = some c' ∧ round n L F c' = some (c'', true) ∧
      k ≤ 1 + ((c.servers F).log.map LogEntry.term).toFinset.card ∧
      (k:ℤ) ≤ lastLogIndex (c.servers L) + 1 ∧
      lastLogIndex (c''.servers L) = lastLogIndex (c.servers L) ∧
      (∀ i : ℤ, 0 ≤ i → i ≤ lastLogIndex (c.servers L) → ∃ e, logEntry (c.servers L) i = .ok e ∧
        logEntry (c''.servers L) i = .ok e ∧ logEntry (c''.servers F) i = .ok e) ∧
      (c''.servers L).matchIndex[F]? = some (lastLogIndex (c.servers L)) ∧
      (c''.servers L).nextIndex[F]? = some (lastLogIndex (c.servers L) + 1) := by
  obtain ⟨a,hs,hb⟩ := reachable_bounded es hes
  have hrl := hs.sound.inv.log_rooted L
  have hrf := hs.sound.inv.log_rooted F
  obtain ⟨bl,wl⟩ := (hs.peer L).window
  obtain ⟨bf,wf⟩ := (hs.peer F).window
  have wl := whole_base wl hwholeL
  have wf := whole_base wf hwholeF
  have hlast := last_log_index wl
  have hr := represented hs hb L
  obtain ⟨v,hv,hv0,hvl⟩ := hr.next hlead F hF
  obtain ⟨x,rfl⟩ := Int.eq_ofNat_of_zero_le hv0
  have hx : x ≤ (a.log L).length := by omega
  obtain ⟨m,hm,-⟩ := hr.matched hlead F hF
  have hstart : Facing L F T (a.log L) (a.log F) 0 0 x c :=
    ⟨hlead,hterm,hbehind,wl,wf,hv,(List.getElem?_eq_some_iff.mp hm).1⟩
  obtain ⟨k,hkx,hkd,hno,hyes⟩ := backoff_settles (a.log L) (a.log F)
    (rooted_ascending hs.sound _ hrf) (rooted_shares a hrl hrf) x hx
  obtain ⟨c',hc',hy,h'⟩ := rejected_rounds hL hF hne k x c hstart hx hno
  obtain ⟨c'',hround,hmatch,h''⟩ := facing_accepted h' hL hF hne (Nat.zero_le _)
    (Nat.zero_le _) hy hyes (indexed_rooted n a hs.sound _ hrl) (rooted_agree a _ _ hrf hrl)
  have hlast'' := last_log_index h''.leader
  refine ⟨k,c',c'',hc',hround,?_,by omega,by omega,fun i hi hil => ?_,?_,?_⟩
  · rw [wf.log]
    exact hkd
  · obtain ⟨j,rfl⟩ := Int.eq_ofNat_of_zero_le hi
    have hj : j < (a.log L).length := by omega
    obtain ⟨hentry,hentryF⟩ := facing_agrees h'' j (Nat.zero_le j) (Nat.zero_le j) hj
    exact ⟨_,log_entry_get wl j _ (Nat.zero_le j) (List.getElem?_eq_getElem hj),hentry,hentryF⟩
  · rw [hmatch, hlast]
  · rw [h''.next, hlast]
    congr 1
    omega

/-- Server 0 leads term 1 and server 1 term 2, and neither entry of the one
nor the two of the other are sent. Then server 1 is elected again. -/
def diverged : List (Event ℕ) :=
  [.election 0, .requestVote 0 1, .requestVoteReply 0 1, .countVote 0 1, .gatherVotes 0,
    .concludeElection 0, .start 0 (some 7), .election 1, .requestVote 1 2, .requestVoteReply 1 2,
    .countVote 1 2, .gatherVotes 1, .concludeElection 1, .start 1 (some 8), .start 1 (some 9),
    .crash 1, .election 1, .requestVote 2 2, .requestVoteReply 2 2, .countVote 2 2, .gatherVotes 2,
    .concludeElection 2]

theorem repair_converges_diverged : ∃ c k c' c'',
    RaftCluster.exec 3 (RaftCluster.initial ℕ 3) diverged = some c ∧
    (rejectedRounds 3 1 0 2 c).isSome = true ∧ rejectedRounds 3 1 0 k c = some c' ∧
    round 3 1 0 c' = some (c'', true) ∧ k ≤ 2 ∧
    (c''.servers 1).matchIndex[0]? = some 1 ∧ (c''.servers 1).nextIndex[0]? = some 2 := by
  obtain ⟨c,hc⟩ := Option.isSome_iff_exists.mp
    (by decide +kernel : (RaftCluster.exec 3 (RaftCluster.initial ℕ 3) diverged).isSome)
  have h : ∀ c ∈ RaftCluster.exec 3 (RaftCluster.initial ℕ 3) diverged,
      (rejectedRounds 3 1 0 2 c).isSome = true ∧ (c.servers 1).state = .leader ∧
      (c.servers 1).currentTerm = 3 ∧ (c.servers 0).currentTerm ≤ 3 ∧
      (c.servers 1).lastIncludedIndex = -1 ∧ (c.servers 0).lastIncludedIndex = -1 ∧
      lastLogIndex (c.servers 1) = 1 ∧
      ((c.servers 0).log.map LogEntry.term).toFinset.card = 1 := by decide +kernel
  obtain ⟨htwo,hlead,hterm,hbehind,hwhole1,hwhole0,hlast,hcard⟩ := h c hc
  obtain ⟨k,c',c'',hk,hround,hd,-,-,-,hmatch,hnext⟩ := repair_converges 3 diverged c 1 0 3 hc
    (by decide) (by decide) (by decide) hlead hterm hbehind hwhole1 hwhole0
  rw [hcard] at hd
  rw [hlast] at hmatch hnext
  exact ⟨c,k,c',c'',hc,htwo,hk,hround,hd,hmatch,hnext⟩

end Mitdist.LogRepair
