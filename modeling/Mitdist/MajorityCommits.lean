import Mitdist.MajorityElects
import Mitdist.SnapshotFeed
import Mitdist.CommitStep

/-!
# A majority that talks commits new commands

Rounds between a leader and the other servers of a majority bring them the
leader's whole log. The leader then finds the last index on a majority, in its
own term, and commits it. Another round with every server tells it the commit
index, and the apply loops hand out all that is committed.
-/

set_option autoImplicit false

namespace Mitdist.MajorityCommits
open Mitdist.RaftPeer Mitdist.RaftHandlers Mitdist.RaftWindow Mitdist.RaftCluster
open Mitdist.RaftOutcomes Mitdist.RaftIndices Mitdist.RaftEvents Mitdist.RaftServers
open Mitdist.StampedLog Mitdist.StampedSearch Mitdist.LeaderProtocol Mitdist.RaftRelation
open Mitdist.RaftSections Mitdist.RaftSimulation Mitdist.RaftReads Mitdist.MatchIndex
open Mitdist.CommitSafety Mitdist.LogRepresentation Mitdist.LogRepair Mitdist.SnapshotFeed
open Mitdist.CommitStep Mitdist.TransitionSystem Mitdist.Progress Mitdist.MajorityElects

variable {C : Type} {n L F : ℕ} {M : Finset ℕ} {c c' : Cluster C} {a : Past C}

/-- What a round consists of. -/
structure Rounds (c c' : Cluster C) (L F : ℕ) (s : Bool) (args : AppendEntriesArgs C)
    (reply : AppendEntriesReply) (leader follower : Raft C) : Prop where
  other : F ≠ L
  sent : appendMissingEntries (c.servers L) (c.servers L).currentTerm F =
    .ok (some (.appendEntries args))
  handled : appendEntries (c.servers F) args = .ok (follower, reply)
  returned : handleAppendReply (c.servers L) F args reply = .ok leader
  left : c' = afterRound c L F args reply leader follower
  success : s = reply.success

/-- A round that takes place is a request of the leader, its handling and the
handling of its reply, and takes place within a set that has both servers. -/
theorem round_cases (hL : L ∈ M) (hF : F ∈ M) (s : Bool)
    (h : LogRepair.round n L F c = some (c', s)) :
    Leads (step n) (Talks M) c c' ∧
      ∃ args reply leader follower, Rounds c c' L F s args reply leader follower := by
  simp only [LogRepair.round, roundEvents, Option.bind_eq_bind, Option.bind_eq_some_iff] at h
  obtain ⟨d,hexec,call,hcall,reply,hreply,h⟩ := h
  obtain ⟨rfl,rfl⟩ := Prod.mk.inj (Option.some.inj h)
  obtain ⟨c1,h1,hexec⟩ := exec_cons_some (step n) _ _ _ _ hexec
  obtain ⟨c2,h2,hexec⟩ := exec_cons_some (step n) _ _ _ _ hexec
  obtain ⟨c3,h3,hexec⟩ := exec_cons_some (step n) _ _ _ _ hexec
  obtain rfl := Option.some.inj hexec
  cases step_runs n c c1 _ h1 with
  | appendMissingEntries _ _ _ request hLn hFn hne hreq =>
    cases step_runs n _ c2 _ h2 with
    | appendEntries _ r follower reply' hr hn hae =>
      rcases request with - | args | args
      · exact absurd hr (by simp [send])
      · obtain rfl := Option.some.inj ((List.getElem?_concat_length ..).symm.trans hr)
        have hlt : c.appendCalls.length <
            (send c L F (some (.appendEntries args))).appendCalls.length := by simp [send]
        cases step_runs n _ c3 _ h3 with
        | handleAppendReply _ r' leader reply'' hr' hy' hhr =>
          obtain rfl := Option.some.inj ((List.getElem?_set_self hlt).symm.trans hr')
          obtain rfl := Option.some.inj hy'
          have hcall' : (c.appendCalls ++ [⟨L,c.epoch L,F,args,some reply',true⟩])[
              c.appendCalls.length]? = some call := by
            rw [← hcall]
            simp [send]
          obtain rfl := Option.some.inj ((List.getElem?_concat_length ..).symm.trans hcall')
          obtain rfl := Option.some.inj hreply
          have hself : Function.update c.servers F follower L = c.servers L :=
            Function.update_of_ne hne.symm _ _
          refine ⟨leads_cons (.appendMissingEntries L (c.servers L).currentTerm F)
            ⟨⟨hL,hF⟩,by simp,by simp⟩ h1 (leads_cons (.appendEntries c.appendCalls.length)
            ⟨?_,by simp,by simp⟩ h2 (leads_one (.handleAppendReply c.appendCalls.length)
            ⟨?_,by simp,by simp⟩ h3)),args,reply',leader,follower,hne,hreq,hae,?_,?_,rfl⟩
          · intro r hr
            obtain rfl := Option.some.inj ((List.getElem?_concat_length ..).symm.trans hr)
            exact ⟨hL,hF⟩
          · intro r hr
            obtain rfl := Option.some.inj ((List.getElem?_set_self hlt).symm.trans hr)
            exact ⟨hL,hF⟩
          · rw [← hself]
            exact hhr
          · simp [afterRound, send, withServer]
      · exact absurd hr (by simp [send])

/-- What rounds between two servers leave alone. -/
structure Apart (c c' : Cluster C) (L F : ℕ) : Prop where
  servers : ∀ j, j ≠ L → j ≠ F → c'.servers j = c.servers j
  matched : ∀ j, j ≠ F → (c'.servers L).matchIndex[j]? = (c.servers L).matchIndex[j]?
  committed : (c'.servers L).commitIndex = (c.servers L).commitIndex

theorem apart_round (s : Bool) (args : AppendEntriesArgs C) (reply : AppendEntriesReply)
    (leader follower : Raft C) (h : Rounds c c' L F s args reply leader follower) :
    Apart c c' L F := by
  obtain ⟨hne,-,-,hreturned,rfl,-⟩ := h
  refine ⟨fun j hjL hjF => ?_,fun j hj => ?_,?_⟩
  · exact (Function.update_of_ne hjL _ _).trans (Function.update_of_ne hjF _ _)
  · rw [after_leader]
    rcases append_reply_outcome F args reply hreturned with
      rfl | ⟨-,-,-,⟨-,-,rfl⟩ | ⟨-,next,rfl⟩⟩
    · rw [handleHigherTerm]
      split_ifs <;> rfl
    · exact List.getElem?_set_ne hj.symm
    · rfl
  · rw [after_leader]
    exact (append_reply_quiet F args reply hreturned).commitIndex

theorem apart_rounds (hL : L ∈ M) (hF : F ∈ M) (k : ℕ) (h : rounds n L F k c = some c') :
    Leads (step n) (Talks M) c c' ∧ Apart c c' L F := by
  induction k generalizing c with
  | zero =>
    obtain rfl := Option.some.inj h
    exact ⟨leads_refl c,fun _ _ _ => rfl,fun _ _ => rfl,rfl⟩
  | succ k ih =>
    simp only [rounds, Option.bind_eq_bind, Option.bind_eq_some_iff] at h
    obtain ⟨⟨d,s⟩,hround,hrest⟩ := h
    obtain ⟨hl,args,reply,leader,follower,hr⟩ := round_cases hL hF s hround
    obtain ⟨hservers,hmatched,hcommitted⟩ := apart_round s args reply leader follower hr
    obtain ⟨hl',hservers',hmatched',hcommitted'⟩ := ih hrest
    exact ⟨leads_trans hl hl',fun j h1 h2 => (hservers' j h1 h2).trans (hservers j h1 h2),
      fun j hj => (hmatched' j hj).trans (hmatched j hj),hcommitted'.trans hcommitted⟩

/-- A follower that stores a request commits what the leader has committed, as
far as its log reaches. -/
theorem stored_commits (args : AppendEntriesArgs C) (reply : AppendEntriesReply)
    (rf rf' : Raft C) (h : appendEntries rf args = .ok (rf', reply)) (hs : reply.success = true)
    (hlow : rf.lastIncludedIndex ≤ args.prevLogIndex) :
    min args.leaderCommitIndex (lastLogIndex rf') ≤ rf'.commitIndex := by
  have hincl := (prepared_fields rf args.term).1
  obtain ⟨-,⟨hskip,-⟩ | ⟨-,-,-,-,rf2,-,rfl⟩ | ⟨-,hno,-⟩⟩ :=
    append_entries_outcome args reply _ rfl h
  · omega
  · unfold followCommit
    split_ifs with hk
    · exact le_rfl
    · exact min_le_of_left_le (not_lt.mp hk)
  · simp [hs] at hno

/-- The leader's whole log is at the other server, which commits what the
leader has committed of it. -/
structure Fed (c c' : Cluster C) (L F : ℕ) : Prop where
  apart : Apart c c' L F
  leads : (c'.servers L).state = .leader
  term : (c'.servers L).currentTerm = (c.servers L).currentTerm
  behind : (c'.servers F).currentTerm ≤ (c.servers L).currentTerm
  log : (c'.servers L).log = (c.servers L).log
  matched : (c'.servers L).matchIndex[F]? = some (((c.servers L).log.length:ℤ)-1)
  stored : (c.servers L).log <+: (c'.servers F).log
  commits : min (c.servers L).commitIndex (((c.servers L).log.length:ℤ)-1) ≤
    (c'.servers F).commitIndex

theorem window_whole (l : List (LogEntry C)) (rf : Raft C) (w : Window l 0 rf) : rf.log = l := by
  rw [w.log, List.drop_zero]

theorem feeds (hs : Sane n M c a) (hM : M ⊆ Finset.range n) (hled : Led M c L) (hF : F ∈ M)
    (hne : F ≠ L) : ∃ c', Leads (step n) (Talks M) c c' ∧ Fed c c' L F := by
  have hLn : L < n := Finset.mem_range.mp (hM hled.mem)
  have hFn : F < n := Finset.mem_range.mp (hM hF)
  have wl := whole_window hs L hled.mem
  have wf := whole_window hs F hF
  have hrl := hs.sim.sound.inv.log_rooted L
  have hrf := hs.sim.sound.inv.log_rooted F
  rw [← whole_log hs L hled.mem] at hrl
  rw [← whole_log hs F hF] at hrf
  have hrep := represented hs.sim hs.bounded L
  have hlast := last_log_index wl
  obtain ⟨v,hv,hv0,hvl⟩ := hrep.next hled.leads F hFn
  obtain ⟨x,rfl⟩ := Int.eq_ofNat_of_zero_le hv0
  obtain ⟨m,hm,-⟩ := hrep.matched hled.leads F hFn
  generalize hl : (c.servers L).log = l at wl hrl hlast
  generalize hf : (c.servers F).log = f at wf hrf
  have hfacing : Facing L F (c.servers L).currentTerm l f 0 0 x c :=
    ⟨hled.leads,rfl,hled.latest F hF,wl,wf,hv,(List.getElem?_eq_some_iff.mp hm).1⟩
  have hjoined : Joined l f 0 0 := ⟨indexed_rooted n a hs.sim.sound _ hrl,
    rooted_agree a _ _ hrf hrl,rooted_ascending hs.sim.sound _ hrf,le_rfl,Nat.zero_le _,
    Nat.zero_le _,rfl,Or.inl rfl⟩
  obtain ⟨k,c1,hrounds,hfacing1,-⟩ := rounds_retained hjoined hLn hFn hne x c hfacing
    (Nat.zero_le x) (by omega)
  obtain ⟨hl1,hapart1⟩ := apart_rounds hled.mem hF k hrounds
  have hbelow : l <+: merge f l := merge_contains f l
  have hmatches : Matches l (merge f l) l.length :=
    ⟨hbelow.length_le,(stamp_at_below _ _ _ hbelow le_rfl).symm⟩
  obtain ⟨c2,hround,hmatched,hfacing2⟩ := facing_accepted hfacing1 hLn hFn hne (Nat.zero_le _)
    (Nat.zero_le _) le_rfl hmatches hjoined.indexed
    (fun k _ hk _ => (take_of_below _ _ k hbelow hk).symm)
  obtain ⟨hl2,args,reply,leader,follower,hr⟩ := round_cases hled.mem hF true hround
  have hapart2 := apart_round true args reply leader follower hr
  have hargs : args = request (c1.servers L) l l.length := by
    have hsent := request_sent hfacing1 (Nat.zero_le _) le_rfl
    rw [hr.sent] at hsent
    simpa using hsent
  have hfollower : c2.servers F = follower := by rw [hr.left, after_follower hne]
  have hstored : l <+: (c2.servers F).log := by
    rw [window_whole _ _ hfacing2.follower]
    exact merge_contains _ _
  have hcommits := stored_commits args reply _ follower hr.handled hr.success.symm (by
    rw [hfacing1.follower.included, hargs]
    show (0:ℤ)-1 ≤ (l.length:ℤ)-1
    omega)
  rw [← hfollower, last_log_index hfacing2.follower, hargs] at hcommits
  have hlen : l.length ≤ (merge (merge f l) l).length := (merge_contains _ _).length_le
  refine ⟨c2,leads_trans hl1 hl2,⟨fun j h1 h2 => ?_,fun j hj => ?_,?_⟩,hfacing2.leads,
    hfacing2.term,hfacing2.behind,?_,hl ▸ hmatched,hl ▸ hstored,?_⟩
  · exact (hapart2.servers j h1 h2).trans (hapart1.servers j h1 h2)
  · exact (hapart2.matched j hj).trans (hapart1.matched j hj)
  · exact hapart2.committed.trans hapart1.committed
  · rw [window_whole _ _ hfacing2.leader, hl]
  · rw [hl, ← hapart1.committed]
    refine le_trans (min_le_min le_rfl ?_) hcommits
    omega

/-- The same for a list of servers. -/
structure Spread (c c' : Cluster C) (L : ℕ) (S : List ℕ) : Prop where
  term : (c'.servers L).currentTerm = (c.servers L).currentTerm
  log : (c'.servers L).log = (c.servers L).log
  committed : (c'.servers L).commitIndex = (c.servers L).commitIndex
  servers : ∀ j, j ≠ L → j ∉ S → c'.servers j = c.servers j
  others : ∀ j, j ∉ S → (c'.servers L).matchIndex[j]? = (c.servers L).matchIndex[j]?
  matched : ∀ F ∈ S, (c'.servers L).matchIndex[F]? = some (((c.servers L).log.length:ℤ)-1)
  stored : ∀ F ∈ S, (c.servers L).log <+: (c'.servers F).log
  commits : ∀ F ∈ S, min (c.servers L).commitIndex (((c.servers L).log.length:ℤ)-1) ≤
    (c'.servers F).commitIndex

theorem led_fed (hled : Led M c L) (h : Fed c c' L F) : Led M c' L where
  mem := hled.mem
  leads := h.leads
  latest j hj := by
    rw [h.term]
    by_cases hjL : j = L
    · rw [hjL, h.term]
    by_cases hjF : j = F
    · rw [hjF]
      exact h.behind
    · rw [h.apart.servers j hjL hjF]
      exact hled.latest j hj

theorem led_kept (hled : Led M c L) (hl : (c'.servers L).state = .leader)
    (ht : (c'.servers L).currentTerm = (c.servers L).currentTerm)
    (hother : ∀ j, j ≠ L → c'.servers j = c.servers j) : Led M c' L where
  mem := hled.mem
  leads := hl
  latest j hj := by
    by_cases hjL : j = L
    · rw [hjL]
    · rw [ht, hother j hjL]
      exact hled.latest j hj

theorem spreads (hM : M ⊆ Finset.range n) (S : List ℕ) (hS : ∀ F ∈ S, F ∈ M ∧ F ≠ L)
    (c : Cluster C) (a : Past C) (hs : Sane n M c a) (hled : Led M c L) :
    ∃ c', Leads (step n) (Talks M) c c' ∧ Led M c' L ∧ Spread c c' L S := by
  induction S generalizing c a with
  | nil =>
    exact ⟨c,leads_refl c,hled,rfl,rfl,rfl,fun _ _ _ => rfl,fun _ _ => rfl,by simp,by simp,
      by simp⟩
  | cons F S ih =>
    obtain ⟨hF,hne⟩ := hS F (by simp)
    obtain ⟨c1,hl1,hfed⟩ := feeds hs hM hled hF hne
    obtain ⟨a1,hs1⟩ := sane_leads hs (talks_within hl1)
    obtain ⟨c2,hl2,hled2,hsp⟩ := ih (fun x hx => hS x (by simp [hx])) c1 a1 hs1
      (led_fed hled hfed)
    have hcommit := hfed.apart.committed
    refine ⟨c2,leads_trans hl1 hl2,hled2,hsp.term.trans hfed.term,hsp.log.trans hfed.log,
      hsp.committed.trans hcommit,fun j hjL hj => ?_,fun j hj => ?_,fun j hj => ?_,fun j hj => ?_,
      fun j hj => ?_⟩
    · rw [List.mem_cons, not_or] at hj
      rw [hsp.servers j hjL hj.2, hfed.apart.servers j hjL hj.1]
    · rw [List.mem_cons, not_or] at hj
      rw [hsp.others j hj.2, hfed.apart.matched j hj.1]
    · by_cases hjS : j ∈ S
      · rw [hsp.matched j hjS, hfed.log]
      · obtain rfl := (List.mem_cons.mp hj).resolve_right hjS
        rw [hsp.others j hjS, hfed.matched]
    · by_cases hjS : j ∈ S
      · rw [← hfed.log]
        exact hsp.stored j hjS
      · obtain rfl := (List.mem_cons.mp hj).resolve_right hjS
        rw [hsp.servers j hne hjS]
        exact hfed.stored
    · by_cases hjS : j ∈ S
      · rw [← hfed.log, ← hcommit]
        exact hsp.commits j hjS
      · obtain rfl := (List.mem_cons.mp hj).resolve_right hjS
        rw [hsp.servers j hne hjS]
        exact hfed.commits

/-- A set of positions with large values is counted. -/
theorem card_le_count (l : List ℤ) (x : ℤ) (v : Finset ℕ)
    (hv : ∀ j ∈ v, ∃ m, l[j]? = some m ∧ x ≤ m) : v.card ≤ l.countP (fun m => x ≤ m) := by
  induction l using List.reverseRecOn generalizing v with
  | nil =>
    have hempty : v = ∅ := Finset.eq_empty_of_forall_notMem (fun j hj => by
      obtain ⟨m,hm,-⟩ := hv j hj
      simp at hm)
    simp [hempty]
  | append_singleton l y ih =>
    have hrest := ih (v.erase l.length) (fun j hj => by
      obtain ⟨hne,hj⟩ := Finset.mem_erase.mp hj
      obtain ⟨m,hm,hx⟩ := hv j hj
      have hlt := (List.getElem?_eq_some_iff.mp hm).1
      rw [List.length_append, List.length_singleton] at hlt
      rw [List.getElem?_append_left (by omega)] at hm
      exact ⟨m,hm,hx⟩)
    rw [List.countP_append, List.countP_singleton]
    by_cases hin : l.length ∈ v
    · obtain ⟨m,hm,hx⟩ := hv l.length hin
      obtain rfl : y = m := by simpa using hm
      rw [Finset.card_erase_of_mem hin] at hrest
      rw [if_pos (by simpa using hx)]
      omega
    · rw [Finset.erase_eq_of_notMem hin] at hrest
      omega

/-- A leader whose whole log is on a majority and ends in its own term commits
all of it. -/
theorem advance_all (hs : Sane n M c a) (hmaj : n/2+1 ≤ M.card) (hled : Led M c L) (k : ℕ)
    (hk : (c.servers L).log.length = k + 1)
    (hmatched : ∀ j ∈ M, (c.servers L).matchIndex[j]? = some (k:ℤ)) (e : LogEntry C)
    (he : (c.servers L).log[k]? = some e) (ht : e.term = (c.servers L).currentTerm) :
    advanceCommitIndex (c.servers L) = .ok { c.servers L with commitIndex := (k:ℤ) } := by
  have w := whole_window hs L hled.mem
  have hlast := last_log_index w
  obtain ⟨hbase,-,hascending,hreached,hlow,-,-⟩ := represented hs.sim hs.bounded L
  rw [List.pairwise_cons, List.pairwise_map] at hascending
  have hterms : ∀ d ∈ (c.servers L).log, d.term ≤ (c.servers L).currentTerm := fun d hd =>
    hreached _ (List.mem_cons_of_mem _ (List.mem_map_of_mem hd))
  rcases lt_or_ge (c.servers L).commitIndex (k:ℤ) with hlt | hge
  · have hmajority : majority (c.servers L) ≤
        (c.servers L).matchIndex.countP (fun m => (k:ℤ) ≤ m) := by
      rw [majority, (hs.sim.peer L).peers]
      exact hmaj.trans (card_le_count _ _ _ (fun j hj => ⟨k,hmatched j hj,le_rfl⟩))
    obtain ⟨hle,hcom⟩ := committable_largest _ hbase hlow hascending.2 hterms k
      ⟨hlt,by omega,hmajority,e,log_entry_get w k e (Nat.zero_le k) he,ht⟩
    have heq : largestOnMajority (c.servers L) = k := by
      have := hcom.2.1
      omega
    rcases advance_commit_step _ hbase hlow hled.leads with ⟨-,hadvance⟩ | ⟨hno,-⟩
    · rw [hadvance, heq]
    · exact absurd hcom hno
  · obtain ⟨m,hm,hlen,-⟩ := hs.commits.peer L
    rw [← whole_log hs L hled.mem] at hlen
    have heq : (c.servers L).commitIndex = k := by omega
    rcases advance_commit_step _ hbase hlow hled.leads with ⟨hcom,-⟩ | ⟨-,hadvance⟩
    · have := hcom.1
      have := hcom.2.1
      omega
    · rw [hadvance, ← heq]

theorem commits_all (hs : Sane n M c a) (hM : M ⊆ Finset.range n) (hmaj : n/2+1 ≤ M.card)
    (hled : Led M c L) (k : ℕ) (hk : (c.servers L).log.length = k + 1)
    (hmatched : ∀ j ∈ M, (c.servers L).matchIndex[j]? = some (k:ℤ)) (e : LogEntry C)
    (he : (c.servers L).log[k]? = some e) (ht : e.term = (c.servers L).currentTerm) :
    Leads (step n) (Talks M) c
      (withServer c L { c.servers L with commitIndex := (k:ℤ) }) := by
  refine leads_one (.advanceCommitIndex L) ⟨⟨hled.mem,hled.leads⟩,by simp,by simp⟩ ?_
  rw [step, if_pos (Finset.mem_range.mp (hM hled.mem)),
    advance_all hs hmaj hled k hk hmatched e he ht]
  rfl

/-- The message that hands out the command of an entry. -/
def handed (k : ℕ) (e : LogEntry C) : ApplyMsg C :=
  { commandValid := true, command := e.command, commandIndex := (k:ℤ)+1 }

/-- What apply steps of one server leave alone. -/
structure Applies (c c' : Cluster C) (j : ℕ) : Prop where
  started : c'.started = c.started
  applied : ∀ x ∈ c.applied, x ∈ c'.applied
  servers : ∀ i, i ≠ j → c'.servers i = c.servers i

theorem applies_trans {d : Cluster C} {j : ℕ} (h : Applies c c' j) (h' : Applies c' d j) :
    Applies c d j :=
  ⟨h'.started.trans h.started,fun x hx => h'.applied x (h.applied x hx),
    fun i hi => (h'.servers i hi).trans (h.servers i hi)⟩

theorem hands_one (j p : ℕ) (hjn : j < n) (d : LogEntry C)
    (w : Window (c.servers j).log 0 (c.servers j)) (hd : (c.servers j).log[p]? = some d)
    (hnext : (c.servers j).lastApplied + 1 = p) (hcommit : (p:ℤ) ≤ (c.servers j).commitIndex)
    (hinst : (c.servers j).snapshotInstalled = false) :
    step n c (.apply j) = some { withServer c j { c.servers j with lastApplied := (p:ℤ) } with
      applied := c.applied ++ [(j, handed p d)] } := by
  have w1 : Window (c.servers j).log 0 { c.servers j with lastApplied := (p:ℤ) } :=
    window_of _ 0 w rfl rfl rfl rfl
  have hentry := log_entry_get w1 p d (Nat.zero_le p) hd
  have hap : apply (c.servers j) =
      .ok ({ c.servers j with lastApplied := (p:ℤ) }, handed p d) := by
    simp only [hinst] at hentry
    simp only [apply, hinst, Bool.false_eq_true, if_false, hnext, hentry]
    rfl
  rw [step, if_pos ⟨hjn,by omega⟩, hap]
  rfl

/-- The apply loop of a server hands out every entry up to its commit index. -/
theorem hands_out (j k : ℕ) (hj : j ∈ M) (hjn : j < n) (e : LogEntry C) (q p : ℕ) (c : Cluster C)
    (w : Window (c.servers j).log 0 (c.servers j)) (he : (c.servers j).log[k]? = some e)
    (hp : (c.servers j).lastApplied + 1 = p) (hq : p + q = k)
    (hcommit : (k:ℤ) ≤ (c.servers j).commitIndex)
    (hinst : (c.servers j).snapshotInstalled = false) :
    ∃ c', Leads (step n) (Within M) c c' ∧ Applies c c' j ∧ (j, handed k e) ∈ c'.applied := by
  induction q generalizing c p with
  | zero =>
    obtain rfl : p = k := hq
    have hstep := hands_one j p hjn e w he hp hcommit hinst
    refine ⟨_,leads_one (.apply j) hj hstep,⟨rfl,fun x hx => ?_,fun i hi => ?_⟩,?_⟩
    · exact List.mem_append_left _ hx
    · exact Function.update_of_ne hi _ _
    · exact List.mem_append_right _ (List.mem_singleton_self _)
  | succ q ih =>
    have hlt : p < (c.servers j).log.length := by
      have := (List.getElem?_eq_some_iff.mp he).1
      omega
    have hstep := hands_one j p hjn _ w (List.getElem?_eq_getElem hlt) hp (by omega) hinst
    generalize hd : ({ withServer c j { c.servers j with lastApplied := (p:ℤ) } with
      applied := c.applied ++ [(j, handed p (c.servers j).log[p])] } : Cluster C) = d at hstep
    have hself : d.servers j = { c.servers j with lastApplied := (p:ℤ) } := by
      rw [← hd]
      exact Function.update_self ..
    have happ : Applies c d j := by
      rw [← hd]
      exact ⟨rfl,fun x hx => List.mem_append_left _ hx,fun i hi => Function.update_of_ne hi _ _⟩
    obtain ⟨c',hl,happ',hin⟩ := ih (p+1) d (by rw [hself]; exact window_of _ 0 w rfl rfl rfl rfl)
      (by rw [hself]; exact he) (by rw [hself]; push_cast; rfl) (by omega)
      (by rw [hself]; exact hcommit) (by rw [hself]; exact hinst)
    exact ⟨c',leads_cons (.apply j) hj hstep hl,applies_trans happ happ',hin⟩

/-- A server first hands out a snapshot that is waiting, and then goes on from
what the snapshot stands for. -/
theorem hands_all (hs : Sane n M c a) (hM : M ⊆ Finset.range n) (j k : ℕ) (hj : j ∈ M)
    (e : LogEntry C) (he : (c.servers j).log[k]? = some e)
    (hnew : (c.servers j).lastApplied < k) (hcommit : (k:ℤ) ≤ (c.servers j).commitIndex) :
    ∃ c', Leads (step n) (Within M) c c' ∧ Applies c c' j ∧ (j, handed k e) ∈ c'.applied := by
  have hjn : j < n := Finset.mem_range.mp (hM hj)
  have w := whole_window hs j hj
  have hlow := (hs.trails j).1
  cases hinst : (c.servers j).snapshotInstalled with
  | false =>
    exact hands_out j k hj hjn e (k - ((c.servers j).lastApplied + 1).toNat)
      ((c.servers j).lastApplied + 1).toNat c w he (by omega) (by omega) hcommit hinst
  | true =>
    obtain ⟨⟨rf,m⟩,hap⟩ : ∃ x, apply (c.servers j) = .ok x := by
      rw [apply, if_pos hinst]
      exact ⟨_,rfl⟩
    obtain ⟨-,hrf,-⟩ | ⟨hno,-⟩ := apply_outcome m hap
    · have hstep : step n c (.apply j) =
          some { withServer c j rf with applied := c.applied ++ [(j, m)] } := by
        rw [step, if_pos ⟨hjn,by omega⟩, hap]
        rfl
      generalize hd : ({ withServer c j rf with applied := c.applied ++ [(j, m)] } : Cluster C) = d
        at hstep
      have hself : d.servers j = rf := by
        rw [← hd]
        exact Function.update_self ..
      have happ : Applies c d j := by
        rw [← hd]
        exact ⟨rfl,fun x hx => List.mem_append_left _ hx,fun i hi => Function.update_of_ne hi _ _⟩
      have hstart : rf.lastApplied + 1 = (0:ℕ) := by
        rw [hrf]
        simp only [hs.whole j hj]
        rfl
      rw [hrf] at hself
      obtain ⟨c',hl,happ',hin⟩ := hands_out j k hj hjn e k 0 d
        (by rw [hself]; exact window_of _ 0 w rfl rfl rfl rfl) (by rw [hself]; exact he)
        (by rw [hself, ← hrf]; exact hstart) (by omega) (by rw [hself]; exact hcommit)
        (by rw [hself])
      exact ⟨c',leads_cons (.apply j) hj hstep hl,applies_trans happ happ',hin⟩
    · simp [hinst] at hno

theorem hands_everyone (hM : M ⊆ Finset.range n) (k : ℕ) (e : LogEntry C) (S : List ℕ)
    (hS : ∀ j ∈ S, j ∈ M) (hnd : S.Nodup) (c : Cluster C) (a : Past C) (hs : Sane n M c a)
    (he : ∀ j ∈ S, (c.servers j).log[k]? = some e)
    (hnew : ∀ j ∈ S, (c.servers j).lastApplied < k)
    (hcommit : ∀ j ∈ S, (k:ℤ) ≤ (c.servers j).commitIndex) :
    ∃ c', Leads (step n) (Within M) c c' ∧ c'.started = c.started ∧
      (∀ x ∈ c.applied, x ∈ c'.applied) ∧ ∀ j ∈ S, (j, handed k e) ∈ c'.applied := by
  induction S generalizing c a with
  | nil => exact ⟨c,leads_refl c,rfl,fun _ hx => hx,by simp⟩
  | cons j S ih =>
    obtain ⟨hjS,hnd⟩ := List.nodup_cons.mp hnd
    obtain ⟨c1,hl1,happ,hin⟩ := hands_all hs hM j k (hS j (by simp)) e (he j (by simp))
      (hnew j (by simp)) (hcommit j (by simp))
    obtain ⟨a1,hs1⟩ := sane_leads hs hl1
    have hsame : ∀ i ∈ S, c1.servers i = c.servers i := by
      intro i hi
      exact happ.servers i (by rintro rfl; exact hjS hi)
    obtain ⟨c2,hl2,hstarted,happlied,hall⟩ := ih (fun i hi => hS i (by simp [hi])) hnd c1 a1 hs1
      (fun i hi => by rw [hsame i hi]; exact he i (by simp [hi]))
      (fun i hi => by rw [hsame i hi]; exact hnew i (by simp [hi]))
      (fun i hi => by rw [hsame i hi]; exact hcommit i (by simp [hi]))
    refine ⟨c2,leads_trans hl1 hl2,hstarted.trans happ.started,
      fun x hx => happlied x (happ.applied x hx),fun i hi => ?_⟩
    rcases List.mem_cons.mp hi with rfl | hi
    · exact happlied _ hin
    · exact hall i hi

/-- The leader's log after a call of `Start`, and its view of itself. -/
def accepts (rf : Raft C) (command : Option C) : Raft C :=
  persist { rf with
    log := rf.log ++ [{ index := rf.log.length, term := rf.currentTerm, command := command }]
    matchIndex := rf.matchIndex.set rf.me rf.log.length }

theorem start_accepted (hs : Sane n M c a) (hM : M ⊆ Finset.range n) (hled : Led M c L)
    (command : Option C) : step n c (.start L command) =
      some { withServer c L (accepts (c.servers L) command) with
        started := c.started ++ [⟨L,command,((c.servers L).log.length:ℤ)+1,
          (c.servers L).currentTerm,true⟩] } := by
  have hLn : L < n := Finset.mem_range.mp (hM hled.mem)
  have hpeer := hs.sim.peer L
  have w := whole_window hs L hled.mem
  have hlast : lastLogIndex (c.servers L) + 1 = (c.servers L).log.length := by
    rw [last_log_index w]
    omega
  have hbase := w.base
  have hstart : start (c.servers L) command = .ok (accepts (c.servers L) command,
      ((c.servers L).log.length:ℤ)+1, (c.servers L).currentTerm, true) := by
    rw [start, if_pos hled.leads, appendEntryLocal, hlast, store,
      if_pos (by rw [hpeer.matchLength, hpeer.me]; exact hLn)]
    simp [ok_bind, pure, Except.pure, accepts, persist, lastLogIndex, hbase]
  rw [step, if_pos hLn, hstart]
  rfl

/-- No server of the set has committed more than the leader's log has. -/
theorem committed_within (hs : Sane n M c a) (hled : Led M c L) (j : ℕ) (hj : j ∈ M) :
    (c.servers j).commitIndex < (c.servers L).log.length := by
  obtain ⟨k,hk,hlen,hset⟩ := hs.commits.peer j
  have hleader := (hs.sim.peer L).leader hled.leads
  have hterm := hled.latest j hj
  rw [(hs.sim.peer j).term, (hs.sim.peer L).term] at hterm
  have hbelow := settled_lead hs.sim.sound.inv _ _ _ hset hterm (by simp [hleader])
  rw [← hs.sim.sound.inv.log_lead L hleader, ← whole_log hs L hled.mem] at hbelow
  have hle := hbelow.length_le
  rw [List.length_take] at hle
  omega

/-- A leader whose log ends in its own term brings the last entry to all
servers of the set, and all of them commit it. -/
theorem commits_everywhere (hs : Sane n M c a) (hM : M ⊆ Finset.range n) (hmaj : n/2+1 ≤ M.card)
    (hled : Led M c L) (k : ℕ) (e : LogEntry C) (hk : (c.servers L).log.length = k + 1)
    (he : (c.servers L).log[k]? = some e) (ht : e.term = (c.servers L).currentTerm)
    (hself : (c.servers L).matchIndex[L]? = some (k:ℤ)) :
    ∃ c', Leads (step n) (Talks M) c c' ∧
      ∀ j ∈ M, (c'.servers j).log[k]? = some e ∧ (k:ℤ) ≤ (c'.servers j).commitIndex := by
  have hothers : ∀ j ∈ (M.erase L).toList, j ∈ M ∧ j ≠ L := by
    intro j hj
    obtain ⟨h1,h2⟩ := Finset.mem_erase.mp (Finset.mem_toList.mp hj)
    exact ⟨h2,h1⟩
  have hmem : ∀ j ∈ M, j ≠ L → j ∈ (M.erase L).toList := fun j hj hne =>
    Finset.mem_toList.mpr (Finset.mem_erase.mpr ⟨hne,hj⟩)
  have hnot : L ∉ (M.erase L).toList := fun hL => (hothers L hL).2 rfl
  obtain ⟨c1,hl1,hled1,hsp1⟩ := spreads hM (M.erase L).toList hothers c a hs hled
  obtain ⟨a1,hs1⟩ := sane_leads hs (talks_within hl1)
  have hmatched : ∀ j ∈ M, (c1.servers L).matchIndex[j]? = some (k:ℤ) := by
    intro j hj
    by_cases hjL : j = L
    · rw [hjL, hsp1.others L hnot, hself]
    · rw [hsp1.matched j (hmem j hj hjL), hk]
      simp
  have hl2 := commits_all hs1 hM hmaj hled1 k (by rw [hsp1.log, hk]) hmatched e
    (by rw [hsp1.log, he]) (by rw [hsp1.term, ht])
  obtain ⟨a2,hs2⟩ := sane_leads hs1 (talks_within hl2)
  generalize hc2 : withServer c1 L { c1.servers L with commitIndex := (k:ℤ) } = c2 at hl2 hs2
  have hleader : c2.servers L = { c1.servers L with commitIndex := (k:ℤ) } := by
    rw [← hc2]
    exact Function.update_self ..
  have hled2 : Led M c2 L := led_kept hled1 (by rw [hleader]; exact hled1.leads) (by rw [hleader])
    (fun j hj => by rw [← hc2]; exact Function.update_of_ne hj _ _)
  obtain ⟨c3,hl3,-,hsp3⟩ := spreads hM (M.erase L).toList hothers c2 a2 hs2 hled2
  have hlog : (c2.servers L).log = (c.servers L).log := by rw [hleader, ← hsp1.log]
  have hcommit : (c2.servers L).commitIndex = k := by rw [hleader]
  refine ⟨c3,leads_trans (leads_trans hl1 hl2) hl3,fun j hj => ?_⟩
  by_cases hjL : j = L
  · rw [hjL, hsp3.log, hlog, hsp3.committed, hcommit]
    exact ⟨he,le_rfl⟩
  · obtain ⟨r,hr⟩ := hsp3.stored j (hmem j hj hjL)
    have hbound := hsp3.commits j (hmem j hj hjL)
    rw [hlog, hcommit, hk] at hbound
    rw [hlog] at hr
    refine ⟨?_,?_⟩
    · rw [← hr, List.getElem?_append_left (by omega), he]
    · push_cast at hbound
      rwa [add_sub_cancel_right, min_self] at hbound

/-- From every state that a guarded run reaches, a majority of servers that
have kept their whole logs can go on alone: by steps and messages among them,
without any of them crashing, one of them takes a given command as the leader,
and all of them apply it under the index that it returned. -/
theorem majority_commits (n : ℕ) (es : List (Event C)) (c : Cluster C)
    (hm : Meets (step n) (fun c e => PollsOnly c e ∧ Covers c e) (RaftCluster.initial C n) es)
    (h : RaftCluster.exec n (RaftCluster.initial C n) es = some c) (M : Finset ℕ)
    (hM : M ⊆ Finset.range n) (hmaj : n/2+1 ≤ M.card)
    (hwhole : ∀ j ∈ M, (c.servers j).lastIncludedIndex = -1) (command : Option C) :
    ∃ c' L index term, Leads (step n) (Within M) c c' ∧ L ∈ M ∧
      c'.started = c.started ++ [⟨L,command,index,term,true⟩] ∧
      ∀ j ∈ M, (j, { commandValid := true, command := command, commandIndex := index }) ∈
        c'.applied := by
  obtain ⟨a,-,hsim,hcom,hb,htr⟩ := sim_run _ _ trails_carried es (sim_initial C n)
    ⟨commits_initial C n,bounded_initial C n,fun _ => ⟨le_rfl,le_rfl⟩⟩ hm h
  have hs : Sane n M c a := ⟨hsim,hcom,hb,htr,hwhole⟩
  obtain ⟨c1,L,hl1,hled⟩ := leader_elected hs hM hmaj
  obtain ⟨a1,hs1⟩ := sane_leads hs (talks_within hl1)
  obtain ⟨hstarted1,-,-⟩ := talks_keeps hs hl1
  have hstep := start_accepted hs1 hM hled command
  obtain ⟨a2,hs2⟩ := sane_step hs1 (.start L command) hled.mem hstep
  have hpeer := hs1.sim.peer L
  have hLn : L < n := Finset.mem_range.mp (hM hled.mem)
  generalize hk : (c1.servers L).log.length = k at hstep hs2
  generalize hc2 : ({ withServer c1 L (accepts (c1.servers L) command) with
    started := c1.started ++ [⟨L,command,(k:ℤ)+1,(c1.servers L).currentTerm,true⟩] } :
      Cluster C) = c2 at hstep hs2
  have hleader : c2.servers L = accepts (c1.servers L) command := by
    rw [← hc2]
    exact Function.update_self ..
  have hother : ∀ j, j ≠ L → c2.servers j = c1.servers j := fun j hj => by
    rw [← hc2]
    exact Function.update_of_ne hj _ _
  have hled2 : Led M c2 L := led_kept hled (by rw [hleader]; exact hled.leads)
    (by rw [hleader]; rfl) hother
  have hlast : ∀ j, (c2.servers j).lastApplied = (c1.servers j).lastApplied := by
    intro j
    by_cases hjL : j = L
    · rw [hjL, hleader]
      rfl
    · rw [hother j hjL]
  obtain ⟨c3,hl3,hall⟩ := commits_everywhere hs2 hM hmaj hled2 k
    { index := k, term := (c1.servers L).currentTerm, command := command }
    (by rw [hleader]; simp [accepts, persist, hk])
    (by rw [hleader]; simp [accepts, persist, hk]) (by rw [hleader]; rfl)
    (by
      rw [hleader]
      simp only [accepts, persist, hpeer.me, hk]
      exact List.getElem?_set_self (by rw [hpeer.matchLength]; exact hLn))
  obtain ⟨a3,hs3⟩ := sane_leads hs2 (talks_within hl3)
  obtain ⟨hstarted3,-,hlast3⟩ := talks_keeps hs2 hl3
  obtain ⟨c4,hl4,hstarted4,-,happlied⟩ := hands_everyone hM k _ M.toList
    (fun j hj => Finset.mem_toList.mp hj) M.nodup_toList c3 a3 hs3
    (fun j hj => (hall j (Finset.mem_toList.mp hj)).1)
    (fun j hj => by
      have hbound := committed_within hs1 hled j (Finset.mem_toList.mp hj)
      rw [hk] at hbound
      rw [hlast3, hlast]
      exact (hs1.trails j).2.trans_lt hbound)
    (fun j hj => (hall j (Finset.mem_toList.mp hj)).2)
  refine ⟨c4,L,(k:ℤ)+1,(c1.servers L).currentTerm,leads_trans (talks_within hl1)
    (leads_cons (.start L command) hled.mem hstep (leads_trans (talks_within hl3) hl4)),
    hled.mem,?_,fun j hj => happlied j (Finset.mem_toList.mpr hj)⟩
  rw [hstarted4, hstarted3, ← hc2, ← hstarted1]

/-- Servers 0 and 1 have both led and have different entries; servers 0 and 2
go on without server 1, which leads the latest term. -/
theorem majority_commits_diverged : ∃ c c' L index,
    RaftCluster.exec 3 (RaftCluster.initial ℕ 3) diverged = some c ∧
    (c.servers 1).state = .leader ∧ (c.servers 0).log ≠ (c.servers 1).log ∧
    Leads (step 3) (Within {0, 2}) c c' ∧ L ∈ ({0, 2} : Finset ℕ) ∧
    ∀ j ∈ ({0, 2} : Finset ℕ),
      (j, { commandValid := true, command := some 5, commandIndex := index }) ∈ c'.applied := by
  obtain ⟨c,hc⟩ := Option.isSome_iff_exists.mp
    (by decide +kernel : (RaftCluster.exec 3 (RaftCluster.initial ℕ 3) diverged).isSome = true)
  have hends : ∀ d ∈ RaftCluster.exec 3 (RaftCluster.initial ℕ 3) diverged,
      (d.servers 1).state = .leader ∧ (d.servers 0).log ≠ (d.servers 1).log ∧
      ∀ j ∈ ({0, 2} : Finset ℕ), (d.servers j).lastIncludedIndex = -1 := by decide +kernel
  obtain ⟨hlead,hlogs,hwhole⟩ := hends c hc
  obtain ⟨c',L,index,term,hl,hL,-,happlied⟩ := majority_commits 3 diverged c (by decide +kernel) hc
    {0, 2} (by decide) (by decide) hwhole (some 5)
  exact ⟨c,c',L,index,hc,hlead,hlogs,hl,hL,happlied⟩

end Mitdist.MajorityCommits
