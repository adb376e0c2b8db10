import Mitdist.RaftInstance
import Mitdist.TransitionSystem

/-!
# Nothing promised is lost by a crash

Between two sections the persister holds exactly what the peer has in memory,
so a restart at any such point restores it. The requests, replies and calls
are arbitrary: no section that changes a persisted field returns without
having persisted it.
-/

set_option autoImplicit false

namespace Mitdist.Persistence
open Mitdist.RaftPeer Mitdist.RaftHandlers Mitdist.RaftCluster Mitdist.RaftOutcomes
open Mitdist.RaftInstance Mitdist.TransitionSystem

variable {C : Type} {rf rf' : Raft C}

structure Kept (rf : Raft C) : Prop where
  raftstate : readPersist rf.persister.raftstate = saved rf
  snapshot : rf.persister.snapshot = rf.snapshot
  base : rf.baseIndex = rf.lastIncludedIndex + 1

theorem kept_persist (h : rf.baseIndex = rf.lastIncludedIndex + 1) : Kept (persist rf) :=
  ⟨rfl,rfl,h⟩

theorem kept_make (n me : ℕ) (p : Persister C) : Kept (make n me p) := ⟨rfl,rfl,rfl⟩

theorem kept_higher_term (h : Kept rf) (t : ℕ) : Kept (handleHigherTerm rf t) := by
  unfold handleHigherTerm
  split_ifs
  · exact kept_persist h.base
  · exact h

theorem kept_stop_candidacy (h : Kept rf) (t : ℕ) : Kept (stopCandidacy rf t) := by
  unfold stopCandidacy
  split_ifs
  · exact ⟨h.raftstate,h.snapshot,h.base⟩
  · exact h

theorem kept_follow_commit (h : Kept rf) (k : ℤ) : Kept (followCommit rf k) := by
  unfold followCommit
  split_ifs
  · exact ⟨h.raftstate,h.snapshot,h.base⟩
  · exact h

theorem kept_append_entries (h : Kept rf) (args : AppendEntriesArgs C) (reply : AppendEntriesReply)
    (he : appendEntries rf args = .ok (rf', reply)) : Kept rf' := by
  have h1 := kept_stop_candidacy (kept_higher_term h args.term) args.term
  rcases (append_entries_outcome args reply _ rfl he).2 with
    ⟨-,rfl,-⟩ | ⟨-,-,-,-,rf2,hrf2,rfl⟩ | ⟨-,-,rfl⟩
  · exact h1
  · apply kept_follow_commit
    rcases append_local_outcome args.entries hrf2 with rfl | ⟨log,rfl⟩
    · exact h1
    · exact kept_persist h1.base
  · exact h1

theorem kept_install_snapshot (h : Kept rf) (args : InstallSnapshotArgs)
    (reply : InstallSnapshotReply) (he : installSnapshot rf args = .ok (rf', reply)) :
    Kept rf' := by
  have h1 := kept_higher_term h args.term
  rcases install_snapshot_outcome args reply _ rfl he with ⟨-,rfl⟩ | ⟨-,-,found,rf2,-,hrf2,rfl⟩
  · exact h1
  · apply kept_persist
    rw [rebase] at hrf2
    split_ifs at hrf2
    · obtain ⟨e,log,-,-,rfl⟩ := trim_outcome _ hrf2
      rfl
    · obtain rfl := Except.ok.inj hrf2
      rfl

/-- Every section leaves in the persister what it leaves in memory. -/
theorem kept_section (h : Kept rf) (s : Section C) (m : Option (ApplyMsg C))
    (hr : Ran rf s rf' m) : Kept rf' := by
  cases hr with
  | start command _ r he =>
    obtain ⟨index,term,isLeader⟩ := r
    obtain ⟨-,hsame,hlead⟩ := start_outcome command index term isLeader he
    by_cases hl : rf.state = .leader
    · obtain ⟨matchIndex,rfl⟩ := hlead hl
      exact kept_persist h.base
    · exact hsame hl ▸ h
  | snapshot index bytes _ he =>
    rcases snapshot_outcome index bytes he with rfl | ⟨-,-,rf2,ht,rfl⟩
    · exact h
    · obtain ⟨e,log,-,-,rfl⟩ := trim_outcome _ ht
      exact kept_persist rfl
  | requestVote args _ reply he =>
    have h1 := kept_higher_term h args.term
    rcases request_vote_outcome args reply he with rfl | rfl
    · exact h1
    · exact kept_persist h1.base
  | appendEntries args _ reply he => exact kept_append_entries h args reply he
  | installSnapshot args _ reply he => exact kept_install_snapshot h args reply he
  | handleHigherTerm term => exact kept_higher_term h term
  | handleAppendReply server args reply _ he =>
    rcases append_reply_outcome server args reply he with rfl | ⟨-,-,-,⟨-,-,rfl⟩ | ⟨-,next,rfl⟩⟩
    · exact kept_higher_term h reply.term
    · exact ⟨h.raftstate,h.snapshot,h.base⟩
    · exact ⟨h.raftstate,h.snapshot,h.base⟩
  | election _ args he =>
    rw [election_outcome args he]
    exact ⟨rfl,rfl,h.base⟩
  | concludeElection preGatherTerm elected _ he =>
    rw [concludeElection] at he
    split_ifs at he
    · obtain ⟨nextIndex,matchIndex,rfl⟩ := become_leader_outcome he
      exact ⟨h.raftstate,h.snapshot,h.base⟩
    · exact Except.ok.inj he ▸ h
  | advanceCommitIndex _ he =>
    rcases advance_commit_outcome he with rfl | ⟨-,-,-,rfl⟩
    · exact h
    · exact ⟨h.raftstate,h.snapshot,h.base⟩
  | apply _ msg _ he =>
    rcases apply_outcome msg he with ⟨-,rfl,-⟩ | ⟨-,rfl,-⟩ <;> exact ⟨h.raftstate,h.snapshot,h.base⟩
  | crash => exact kept_make _ _ _

def next (rf : Raft C) (s : Section C) : Option (Raft C) := (run rf s).map Prod.fst

theorem kept_run (ss : List (Section C)) (h : Kept rf) (hr : exec next rf ss = some rf') :
    Kept rf' := by
  apply exec_always next Kept ?_ ss rf rf' h hr
  intro s e s' hs he
  obtain ⟨⟨rf1,m⟩,hrun,rfl⟩ := Option.map_eq_some_iff.mp he
  exact kept_section hs e m (run_ran e m hrun)

/-- After any sequence of sections, crashes included, the persister restores
the fields in memory, and a restart keeps them. The persister at the start is
arbitrary, so it may be empty or left by an earlier run. -/
theorem crash_loses_nothing (n me : ℕ) (p : Persister C) (ss : List (Section C)) (rf : Raft C)
    (h : exec next (make n me p) ss = some rf) :
    (readPersist rf.persister.raftstate).currentTerm = rf.currentTerm ∧
    (readPersist rf.persister.raftstate).votedFor = rf.votedFor ∧
    (readPersist rf.persister.raftstate).log = rf.log ∧
    (readPersist rf.persister.raftstate).lastIncludedIndex = rf.lastIncludedIndex ∧
    (readPersist rf.persister.raftstate).lastIncludedTerm = rf.lastIncludedTerm ∧
    rf.persister.snapshot = rf.snapshot ∧
    ∀ rf', rf' = make n me rf.persister →
      rf'.currentTerm = rf.currentTerm ∧ rf'.votedFor = rf.votedFor ∧ rf'.log = rf.log ∧
      rf'.lastIncludedIndex = rf.lastIncludedIndex ∧ rf'.lastIncludedTerm = rf.lastIncludedTerm ∧
      rf'.snapshot = rf.snapshot ∧ rf'.baseIndex = rf.baseIndex ∧
      rf'.commitIndex = rf.lastIncludedIndex ∧ rf'.lastApplied = rf.lastIncludedIndex := by
  obtain ⟨hstate,hsnap,hbase⟩ := kept_run ss (kept_make n me p) h
  refine ⟨by rw [hstate]; rfl,by rw [hstate]; rfl,by rw [hstate]; rfl,by rw [hstate]; rfl,
    by rw [hstate]; rfl,hsnap,?_⟩
  rintro rf' rfl
  simp [make, hstate, saved, hsnap, hbase]

/-- A cluster of one elects itself and stores one entry. -/
def storesOne : List (Section ℕ) := [.election, .concludeElection 1 true, .start (some 7)]

theorem crash_loses_nothing_stored : ∃ rf, exec next (make 1 0 {}) storesOne = some rf ∧
    rf.log = [⟨0,1,some 7⟩] ∧ (make 1 0 rf.persister).log = rf.log :=
  ⟨_,rfl,by decide +kernel,((crash_loses_nothing 1 0 {} storesOne _ rfl).2.2.2.2.2.2 _ rfl).2.2.1⟩

end Mitdist.Persistence
