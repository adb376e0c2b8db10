import Mitdist.Persistence

/-!
# How the indices of an instance move

Most sections leave the commit, apply and snapshot indices alone. Appending
may raise the commit index, installing a snapshot moves the base and asks for
a restore, and a snapshot of the service moves the base. The log keeps its
entries in order as long as requests carry consecutive entries.
-/

set_option autoImplicit false

namespace Mitdist.RaftIndices
open Mitdist.RaftPeer Mitdist.RaftHandlers Mitdist.RaftCluster Mitdist.RaftOutcomes
open Mitdist.RaftInstance Mitdist.Persistence

variable {C : Type} {rf rf' : Raft C}

structure Quiet (rf rf' : Raft C) : Prop where
  commitIndex : rf'.commitIndex = rf.commitIndex
  lastApplied : rf'.lastApplied = rf.lastApplied
  lastIncludedIndex : rf'.lastIncludedIndex = rf.lastIncludedIndex
  baseIndex : rf'.baseIndex = rf.baseIndex
  snapshotInstalled : rf'.snapshotInstalled = rf.snapshotInstalled

theorem quiet_refl (rf : Raft C) : Quiet rf rf := ⟨rfl,rfl,rfl,rfl,rfl⟩

theorem higher_term_quiet (rf : Raft C) (t : ℕ) : Quiet rf (handleHigherTerm rf t) := by
  unfold handleHigherTerm
  split_ifs
  · exact ⟨rfl,rfl,rfl,rfl,rfl⟩
  · exact quiet_refl rf

theorem request_vote_quiet (args : RequestVoteArgs) (reply : RequestVoteReply)
    (h : requestVote rf args = .ok (rf', reply)) : Quiet rf rf' := by
  obtain ⟨h1,h2,h3,h4,h5⟩ := higher_term_quiet rf args.term
  rcases request_vote_outcome args reply h with rfl | rfl <;> exact ⟨h1,h2,h3,h4,h5⟩

theorem election_quiet (args : RequestVoteArgs) (h : election rf = .ok (rf', args)) :
    Quiet rf rf' := by
  rw [election_outcome args h]
  exact ⟨rfl,rfl,rfl,rfl,rfl⟩

theorem conclude_quiet (preGatherTerm : ℕ) (elected : Bool)
    (h : concludeElection rf preGatherTerm elected = .ok rf') : Quiet rf rf' := by
  rw [concludeElection] at h
  split_ifs at h
  · obtain ⟨nextIndex,matchIndex,rfl⟩ := become_leader_outcome h
    exact ⟨rfl,rfl,rfl,rfl,rfl⟩
  · exact Except.ok.inj h ▸ quiet_refl rf

theorem append_reply_quiet (server : ℕ) (args : AppendEntriesArgs C) (reply : AppendEntriesReply)
    (h : handleAppendReply rf server args reply = .ok rf') : Quiet rf rf' := by
  rcases append_reply_outcome server args reply h with rfl | ⟨-,-,-,⟨-,-,rfl⟩ | ⟨-,next,rfl⟩⟩
  · exact higher_term_quiet rf reply.term
  · exact ⟨rfl,rfl,rfl,rfl,rfl⟩
  · exact ⟨rfl,rfl,rfl,rfl,rfl⟩

theorem start_quiet (command : Option C) (r : ℤ × ℕ × Bool) (h : start rf command = .ok (rf', r)) :
    Quiet rf rf' := by
  obtain ⟨index,term,isLeader⟩ := r
  obtain ⟨-,hsame,hlead⟩ := start_outcome command index term isLeader h
  by_cases hl : rf.state = .leader
  · obtain ⟨matchIndex,rfl⟩ := hlead hl
    exact ⟨rfl,rfl,rfl,rfl,rfl⟩
  · exact hsame hl ▸ quiet_refl rf

/-- Only a request that was stored raises the commit index, to what the leader
had committed or to the end of the log. -/
theorem append_entries_indices (args : AppendEntriesArgs C) (reply : AppendEntriesReply)
    (h : appendEntries rf args = .ok (rf', reply)) :
    Quiet rf rf' ∨ rf.currentTerm ≤ args.term ∧ ¬ args.prevLogIndex < rf.lastIncludedIndex ∧
      reply.success = true ∧ reply.term = args.term ∧ rf.commitIndex < args.leaderCommitIndex ∧
      Quiet { rf with commitIndex := min args.leaderCommitIndex (lastLogIndex rf') } rf' := by
  obtain ⟨hi,hb,hc,ha,hs,ht⟩ := prepared_fields rf args.term
  generalize hrf1 : stopCandidacy (handleHigherTerm rf args.term) args.term = rf1 at *
  obtain ⟨hrep,hcase⟩ := append_entries_outcome args reply rf1 hrf1.symm h
  rcases hcase with ⟨-,rfl,-⟩ | ⟨hskip,hsucc,-,hnew,rf2,hrf2,rfl⟩ | ⟨-,-,rfl⟩
  · exact Or.inl ⟨hc,ha,hi,hb,hs⟩
  · have hq : Quiet rf rf2 := by
      rcases append_local_outcome args.entries hrf2 with rfl | ⟨log,rfl⟩ <;>
        exact ⟨hc,ha,hi,hb,hs⟩
    obtain ⟨h1,h2,h3,h4,h5⟩ := hq
    unfold followCommit
    split_ifs with hk
    · right
      rw [hi] at hskip
      exact ⟨by omega,hskip,hsucc,by omega,by omega,rfl,h2,h3,h4,h5⟩
    · exact Or.inl ⟨h1,h2,h3,h4,h5⟩
  · exact Or.inl ⟨hc,ha,hi,hb,hs⟩

theorem largest_loop (rf : Raft C) (fuel : ℕ) (s : ℤ) (hf : lastLogIndex rf < s + fuel) :
    largestOnMajorityLoop rf fuel s ≤ lastLogIndex rf ∧
      ∀ y, s ≤ y → y ≤ largestOnMajorityLoop rf fuel s → majority rf ≤ nReplicated rf y := by
  induction fuel generalizing s with
  | zero =>
    rw [largestOnMajorityLoop]
    exact ⟨Int.le_refl _,fun y h1 h2 => by omega⟩
  | succ fuel ih =>
    rw [largestOnMajorityLoop]
    split_ifs with hs hr
    · exact ⟨by omega,fun y h1 h2 => by omega⟩
    · obtain ⟨h1,h2⟩ := ih (s+1) (by push_cast at hf; omega)
      refine ⟨h1,fun y hy hle => ?_⟩
      by_cases hys : y = s
      · subst hys
        omega
      · exact h2 y (by omega) hle
    · exact ⟨Int.le_refl _,fun y h1 h2 => by omega⟩

theorem largest_on_majority (rf : Raft C) (h : rf.commitIndex < largestOnMajority rf) :
    largestOnMajority rf ≤ lastLogIndex rf ∧
      majority rf ≤ nReplicated rf (largestOnMajority rf) := by
  obtain ⟨h1,h2⟩ := largest_loop rf (lastLogIndex rf - rf.commitIndex).toNat (rf.commitIndex + 1)
    (by omega)
  exact ⟨h1,h2 _ h (Int.le_refl _)⟩

/-- The log holds its entries in the order of their indices from the base on. -/
structure Ordered (rf : Raft C) : Prop where
  base : rf.baseIndex = rf.lastIncludedIndex + 1
  index : ∀ (k : ℕ) (e : LogEntry C), rf.log[k]? = some e → e.index = rf.baseIndex + k

def Consecutive (start : ℤ) (entries : List (LogEntry C)) : Prop :=
  ∀ (k : ℕ) (e : LogEntry C), entries[k]? = some e → e.index = start + k

@[simp]
theorem consecutive_nil (start : ℤ) : Consecutive (C := C) start [] := by
  intro k e he
  simp at he

@[simp]
theorem consecutive_cons (start : ℤ) (e : LogEntry C) (entries : List (LogEntry C)) :
    Consecutive start (e::entries) ↔ e.index = start ∧ Consecutive (start+1) entries := by
  constructor
  · intro h
    refine ⟨by simpa using h 0 e rfl,fun k d hd => ?_⟩
    have := h (k+1) d (by simpa using hd)
    push_cast at this
    omega
  · rintro ⟨he,h⟩ k d hd
    cases k with
    | zero =>
      obtain rfl : e = d := by simpa using hd
      simpa using he
    | succ k =>
      have := h k d (by simpa using hd)
      push_cast
      omega

instance decidableConsecutive : ∀ (start : ℤ) (entries : List (LogEntry C)),
    Decidable (Consecutive start entries)
  | start, [] => .isTrue (consecutive_nil start)
  | start, e::entries =>
    have : Decidable (Consecutive (start+1) entries) := decidableConsecutive (start+1) entries
    decidable_of_iff _ (consecutive_cons start e entries).symm

theorem ordered_of (h : Ordered rf) (h1 : rf'.baseIndex = rf.baseIndex)
    (h2 : rf'.lastIncludedIndex = rf.lastIncludedIndex) (h3 : rf'.log = rf.log) : Ordered rf' :=
  ⟨by rw [h1, h2, h.base],fun k e he => by rw [h1]; exact h.index k e (h3 ▸ he)⟩

theorem higher_term_ordered (h : Ordered rf) (t : ℕ) : Ordered (handleHigherTerm rf t) := by
  have hq := higher_term_quiet rf t
  refine ordered_of h hq.baseIndex hq.lastIncludedIndex ?_
  unfold handleHigherTerm
  split_ifs <;> rfl

theorem entry_index (h : Ordered rf) (x : ℤ) (e : LogEntry C) (he : logEntry rf x = .ok e) :
    e.index = x := by
  unfold logEntry at he
  split_ifs at he
  · rw [← Except.ok.inj he]
  · obtain ⟨h0,hk⟩ := (load_ok _ _ _).mp he
    rw [h.index _ e hk]
    omega

theorem trim_ordered (h : Ordered rf) (index : ℤ) (ht : trim rf index = .ok rf') :
    Ordered rf' ∧ rf'.lastIncludedIndex = index ∧ rf'.commitIndex = rf.commitIndex ∧
      rf'.lastApplied = rf.lastApplied ∧ rf'.snapshotInstalled = rf.snapshotInstalled := by
  obtain ⟨e,log,he,hlog,rfl⟩ := trim_outcome index ht
  have hx := entry_index h index e he
  refine ⟨⟨rfl,fun k d hd => ?_⟩,hx,rfl,rfl,rfl⟩
  rcases hlog with ⟨rfl,-⟩ | ⟨-,-,hs⟩
  · simp at hd
  · rw [sliceFrom] at hs
    split_ifs at hs with hr
    rw [← Except.ok.inj hs, List.getElem?_drop] at hd
    rw [h.index _ d hd]
    simp only [hx]
    omega

theorem install_snapshot_indices (ho : Ordered rf) (args : InstallSnapshotArgs)
    (reply : InstallSnapshotReply) (h : installSnapshot rf args = .ok (rf', reply)) :
    Quiet rf rf' ∧ (args.term < (handleHigherTerm rf args.term).currentTerm ∨
        args.lastIncludedIndex ≤ rf.lastIncludedIndex) ∨
      rf.currentTerm ≤ args.term ∧ rf.lastIncludedIndex < args.lastIncludedIndex ∧
      rf'.lastIncludedIndex = args.lastIncludedIndex ∧
      rf'.baseIndex = args.lastIncludedIndex + 1 ∧
      rf'.commitIndex = max rf.commitIndex args.lastIncludedIndex ∧
      rf'.lastApplied = rf.lastApplied ∧ rf'.snapshotInstalled = true := by
  have hq := higher_term_quiet rf args.term
  have ht := higher_term_term rf args.term
  have ho1 := higher_term_ordered ho args.term
  generalize hrf1 : handleHigherTerm rf args.term = rf1 at *
  obtain ⟨h1,h2,h3,h4,h5⟩ := hq
  rcases install_snapshot_outcome args reply rf1 hrf1.symm h with
    ⟨hold,rfl⟩ | ⟨hnew,hlater,found,rf2,-,hrf2,rfl⟩
  · exact Or.inl ⟨⟨h1,h2,h3,h4,h5⟩,h3 ▸ hold⟩
  · right
    refine ⟨by omega,h3 ▸ hlater,?_⟩
    rw [rebase] at hrf2
    split_ifs at hrf2
    · have ho2 : Ordered { rf1 with snapshot := args.snapshot } := ordered_of ho1 rfl rfl rfl
      obtain ⟨t1,t2,t3,t4,t5⟩ := trim_ordered ho2 _ hrf2
      exact ⟨t2,by simp only [persist]; rw [t1.base, t2],by simp only [persist]; rw [t3, h1],
        t4.trans h2,rfl⟩
    · obtain rfl := Except.ok.inj hrf2
      exact ⟨rfl,rfl,by simp only [persist]; rw [h1],h2,rfl⟩

theorem snapshot_indices (ho : Ordered rf) (index : ℤ) (bytes : Bytes)
    (h : snapshot rf index bytes = .ok rf') :
    rf' = rf ∨ rf.lastIncludedIndex < index - 1 ∧ index - 1 ≤ rf.commitIndex ∧
      rf'.lastIncludedIndex = index - 1 ∧ rf'.baseIndex = index ∧
      rf'.commitIndex = rf.commitIndex ∧ rf'.lastApplied = rf.lastApplied ∧
      rf'.snapshotInstalled = rf.snapshotInstalled := by
  rcases snapshot_outcome index bytes h with rfl | ⟨hlow,hhigh,rf2,ht,rfl⟩
  · exact Or.inl rfl
  · obtain ⟨t1,t2,t3,t4,t5⟩ := trim_ordered ho _ ht
    refine Or.inr ⟨hlow,hhigh,t2,?_,t3,t4,t5⟩
    have := t1.base
    simp only [persist]
    omega

/-- Entries that are merged replace the log from the index of the first one
that differs. -/
theorem append_loop_ordered (h : Ordered rf) (entries : List (LogEntry C)) (start : ℤ)
    (hc : Consecutive start entries) (ha : appendLoop rf entries = .ok rf') : Ordered rf' := by
  induction entries generalizing start with
  | nil => exact Except.ok.inj ha ▸ h
  | cons e entries ih =>
    rw [appendLoop, bind_ok] at ha
    obtain ⟨present,-,ha⟩ := ha
    split_ifs at ha
    · exact ih (start+1) ((consecutive_cons start e entries).mp hc).2 ha
    · rw [bind_ok] at ha
      obtain ⟨kept,hk,ha⟩ := ha
      rw [logEntriesTo, sliceTo] at hk
      split_ifs at hk with hr
      have he := ((consecutive_cons start e entries).mp hc).1
      have hlen : kept.length = (e.index - rf.baseIndex).toNat := by
        rw [← Except.ok.inj hk, List.length_take]
        omega
      obtain rfl := Except.ok.inj ha
      refine ⟨h.base,fun k d hd => ?_⟩
      rcases lt_or_ge k kept.length with hlt | hge
      · simp only [List.getElem?_append_left hlt] at hd
        rw [← Except.ok.inj hk, List.getElem?_take] at hd
        split_ifs at hd
        exact h.index k d hd
      · simp only [List.getElem?_append_right hge] at hd
        have := hc _ d hd
        simp only
        omega

theorem append_entries_ordered (h : Ordered rf) (args : AppendEntriesArgs C)
    (hc : Consecutive (args.prevLogIndex + 1) args.entries) (reply : AppendEntriesReply)
    (he : appendEntries rf args = .ok (rf', reply)) : Ordered rf' := by
  have h1 : Ordered (stopCandidacy (handleHigherTerm rf args.term) args.term) := by
    obtain ⟨hi,hb,-⟩ := prepared_fields rf args.term
    refine ordered_of h hb hi ?_
    unfold stopCandidacy handleHigherTerm
    split_ifs <;> rfl
  rcases (append_entries_outcome args reply _ rfl he).2 with
    ⟨-,rfl,-⟩ | ⟨-,-,-,-,rf2,hrf2,rfl⟩ | ⟨-,-,rfl⟩
  · exact h1
  · have h2 : Ordered rf2 := by
      rw [appendEntriesLocal] at hrf2
      split_ifs at hrf2
      · exact Except.ok.inj hrf2 ▸ h1
      · rw [bind_ok] at hrf2
        obtain ⟨rf3,hloop,hrf2⟩ := hrf2
        obtain rfl := Except.ok.inj hrf2
        exact ordered_of (append_loop_ordered h1 _ _ hc hloop) rfl rfl rfl
    unfold followCommit
    split_ifs
    · exact ordered_of h2 rfl rfl rfl
    · exact h2
  · exact h1

/-- A request carries the consecutive entries after its previous index. -/
def InOrder : Section C → Prop
  | .appendEntries args => Consecutive (args.prevLogIndex + 1) args.entries
  | _ => True

instance decidableInOrder : ∀ s : Section C, Decidable (InOrder s)
  | .appendEntries args => decidableConsecutive (args.prevLogIndex + 1) args.entries
  | .start _ | .snapshot _ _ | .requestVote _ | .installSnapshot _ | .handleHigherTerm _
  | .handleAppendReply _ _ _ | .election | .concludeElection _ _ | .advanceCommitIndex | .apply
  | .crash => .isTrue trivial

theorem install_snapshot_ordered (h : Ordered rf) (args : InstallSnapshotArgs)
    (reply : InstallSnapshotReply) (he : installSnapshot rf args = .ok (rf', reply)) :
    Ordered rf' := by
  have h1 := higher_term_ordered h args.term
  rcases install_snapshot_outcome args reply _ rfl he with ⟨-,rfl⟩ | ⟨-,-,found,rf2,-,hrf2,rfl⟩
  · exact h1
  · rw [rebase] at hrf2
    split_ifs at hrf2
    · have h2 : Ordered { handleHigherTerm rf args.term with snapshot := args.snapshot } :=
        ordered_of h1 rfl rfl rfl
      exact ordered_of (trim_ordered h2 _ hrf2).1 rfl rfl rfl
    · obtain rfl := Except.ok.inj hrf2
      exact ⟨rfl,fun k e he => by simp [persist] at he⟩

theorem start_ordered (h : Ordered rf) (command : Option C) (r : ℤ × ℕ × Bool)
    (he : start rf command = .ok (rf', r)) : Ordered rf' := by
  obtain ⟨index,term,isLeader⟩ := r
  obtain ⟨-,hsame,hlead⟩ := start_outcome command index term isLeader he
  by_cases hl : rf.state = .leader
  · obtain ⟨matchIndex,rfl⟩ := hlead hl
    refine ⟨h.base,fun k e he => ?_⟩
    simp only [persist, lastLogIndex] at he ⊢
    rw [List.getElem?_append] at he
    split_ifs at he with hk
    · exact h.index k e he
    · rw [List.getElem?_singleton] at he
      split_ifs at he with h0
      rw [← Option.some.inj he]
      simp only
      omega
  · exact hsame hl ▸ h

/-- Consecutive requests keep the log in order. -/
theorem ordered_section (hk : Kept rf) (h : Ordered rf) (s : Section C) (m : Option (ApplyMsg C))
    (hs : InOrder s) (hr : Ran rf s rf' m) : Ordered rf' := by
  cases hr with
  | start command _ r he => exact start_ordered h command r he
  | snapshot index bytes _ he =>
    rcases snapshot_outcome index bytes he with rfl | ⟨-,-,rf2,ht,rfl⟩
    · exact h
    · exact ordered_of (trim_ordered h _ ht).1 rfl rfl rfl
  | requestVote args _ reply he =>
    have h1 := higher_term_ordered h args.term
    rcases request_vote_outcome args reply he with rfl | rfl
    · exact h1
    · exact ordered_of h1 rfl rfl rfl
  | appendEntries args _ reply he => exact append_entries_ordered h args hs reply he
  | installSnapshot args _ reply he => exact install_snapshot_ordered h args reply he
  | handleHigherTerm term => exact higher_term_ordered h term
  | handleAppendReply server args reply _ he =>
    rcases append_reply_outcome server args reply he with rfl | ⟨-,-,-,⟨-,-,rfl⟩ | ⟨-,next,rfl⟩⟩
    · exact higher_term_ordered h reply.term
    · exact ordered_of h rfl rfl rfl
    · exact ordered_of h rfl rfl rfl
  | election _ args he =>
    rw [election_outcome args he]
    exact ordered_of h rfl rfl rfl
  | concludeElection preGatherTerm elected _ he =>
    rw [concludeElection] at he
    split_ifs at he
    · obtain ⟨nextIndex,matchIndex,rfl⟩ := become_leader_outcome he
      exact ordered_of h rfl rfl rfl
    · exact Except.ok.inj he ▸ h
  | advanceCommitIndex _ he =>
    rcases advance_commit_outcome he with rfl | ⟨-,-,-,rfl⟩
    · exact h
    · exact ordered_of h rfl rfl rfl
  | apply _ msg _ he =>
    rcases apply_outcome msg he with ⟨-,rfl,-⟩ | ⟨-,rfl,-⟩ <;> exact ordered_of h rfl rfl rfl
  | crash =>
    have hp := hk.raftstate
    refine ordered_of h ?_ ?_ ?_
    · simp only [make, hp, saved, h.base]
    · simp only [make, hp, saved]
    · simp only [make, hp, saved]

/-- Apart from the apply loop and a restart, only a snapshot of the service
and an installed snapshot move what an instance has discarded, and nothing
moves what it has applied. -/
theorem moved_section (ho : Ordered rf) (s : Section C) (m : Option (ApplyMsg C))
    (hr : Ran rf s rf' m) (ha : s ≠ .apply) (hc : s ≠ .crash) :
    m = none ∧ rf'.lastApplied = rf.lastApplied ∧
    (rf'.lastIncludedIndex = rf.lastIncludedIndex ∧
      rf'.snapshotInstalled = rf.snapshotInstalled ∨
    (∃ index bytes, s = .snapshot index bytes ∧ rf.lastIncludedIndex < index - 1 ∧
      rf'.lastIncludedIndex = index - 1 ∧ rf'.snapshotInstalled = rf.snapshotInstalled) ∨
    ∃ args, s = .installSnapshot args ∧ rf.currentTerm ≤ args.term ∧
      rf.lastIncludedIndex < args.lastIncludedIndex ∧
      rf'.lastIncludedIndex = args.lastIncludedIndex ∧ rf'.snapshotInstalled = true) := by
  have quiet : ∀ rf2 : Raft C, Quiet rf rf2 → rf2.lastApplied = rf.lastApplied ∧
      rf2.lastIncludedIndex = rf.lastIncludedIndex ∧
      rf2.snapshotInstalled = rf.snapshotInstalled :=
    fun _ hq => ⟨hq.lastApplied,hq.lastIncludedIndex,hq.snapshotInstalled⟩
  cases hr with
  | start command _ r he =>
    obtain ⟨h1,h2⟩ := quiet _ (start_quiet command r he)
    exact ⟨rfl,h1,Or.inl h2⟩
  | snapshot index bytes _ he =>
    rcases snapshot_indices ho index bytes he with rfl | ⟨hlow,-,hincl,-,-,happ,hinst⟩
    · exact ⟨rfl,rfl,Or.inl ⟨rfl,rfl⟩⟩
    · exact ⟨rfl,happ,Or.inr (Or.inl ⟨index,bytes,rfl,hlow,hincl,hinst⟩)⟩
  | requestVote args _ reply he =>
    obtain ⟨h1,h2⟩ := quiet _ (request_vote_quiet args reply he)
    exact ⟨rfl,h1,Or.inl h2⟩
  | appendEntries args _ reply he =>
    rcases append_entries_indices args reply he with hq | ⟨-,-,-,-,-,hq⟩
    · obtain ⟨h1,h2⟩ := quiet _ hq
      exact ⟨rfl,h1,Or.inl h2⟩
    · exact ⟨rfl,hq.lastApplied,Or.inl ⟨hq.lastIncludedIndex,hq.snapshotInstalled⟩⟩
  | installSnapshot args _ reply he =>
    rcases install_snapshot_indices ho args reply he with ⟨hq,-⟩ | ⟨ht,hlow,hincl,-,-,happ,hinst⟩
    · obtain ⟨h1,h2⟩ := quiet _ hq
      exact ⟨rfl,h1,Or.inl h2⟩
    · exact ⟨rfl,happ,Or.inr (Or.inr ⟨args,rfl,ht,hlow,hincl,hinst⟩)⟩
  | handleHigherTerm term =>
    obtain ⟨h1,h2⟩ := quiet _ (higher_term_quiet rf term)
    exact ⟨rfl,h1,Or.inl h2⟩
  | handleAppendReply server args reply _ he =>
    obtain ⟨h1,h2⟩ := quiet _ (append_reply_quiet server args reply he)
    exact ⟨rfl,h1,Or.inl h2⟩
  | election _ args he =>
    obtain ⟨h1,h2⟩ := quiet _ (election_quiet args he)
    exact ⟨rfl,h1,Or.inl h2⟩
  | concludeElection preGatherTerm elected _ he =>
    obtain ⟨h1,h2⟩ := quiet _ (conclude_quiet preGatherTerm elected he)
    exact ⟨rfl,h1,Or.inl h2⟩
  | advanceCommitIndex _ he =>
    rcases advance_commit_outcome he with rfl | ⟨-,-,-,rfl⟩ <;> exact ⟨rfl,rfl,Or.inl ⟨rfl,rfl⟩⟩
  | apply _ msg _ he => exact absurd rfl ha
  | crash => exact absurd rfl hc

end Mitdist.RaftIndices
