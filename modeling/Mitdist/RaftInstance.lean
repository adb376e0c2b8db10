import Mitdist.RaftCluster
import Mitdist.RaftOutcomes
import Mitdist.RaftWindow

/-!
# One Raft instance in an arbitrary environment

An instance runs its lock-protected sections in any order. Requests, replies
and calls of the service are arbitrary here; a crash is followed by `Make` on
the same persister. What a section did is recovered from its result once.
-/

set_option autoImplicit false

namespace Mitdist.RaftInstance
open Mitdist.RaftPeer Mitdist.RaftHandlers Mitdist.RaftCluster Mitdist.RaftOutcomes

inductive Section (C : Type) where
  | start (command : Option C)
  | snapshot (index : ℤ) (bytes : Bytes)
  | requestVote (args : RequestVoteArgs)
  | appendEntries (args : AppendEntriesArgs C)
  | installSnapshot (args : InstallSnapshotArgs)
  | handleHigherTerm (term : ℕ)
  | handleAppendReply (server : ℕ) (args : AppendEntriesArgs C) (reply : AppendEntriesReply)
  | election
  | concludeElection (preGatherTerm : ℕ) (elected : Bool)
  | advanceCommitIndex
  | apply
  | crash
  deriving DecidableEq, Repr

variable {C : Type} {rf rf' : Raft C}

def run (rf : Raft C) : Section C → Option (Raft C × Option (ApplyMsg C))
  | .start command => do
    let (rf, _) ← (start rf command).toOption
    return (rf, none)
  | .snapshot index bytes => do
    let rf ← (snapshot rf index bytes).toOption
    return (rf, none)
  | .requestVote args => do
    let (rf, _) ← (requestVote rf args).toOption
    return (rf, none)
  | .appendEntries args => do
    let (rf, _) ← (appendEntries rf args).toOption
    return (rf, none)
  | .installSnapshot args => do
    let (rf, _) ← (installSnapshot rf args).toOption
    return (rf, none)
  | .handleHigherTerm term => some (handleHigherTerm rf term, none)
  | .handleAppendReply server args reply => do
    let rf ← (handleAppendReply rf server args reply).toOption
    return (rf, none)
  | .election =>
    if rf.state ≠ .leader then do
      let (rf, _) ← (election rf).toOption
      return (rf, none)
    else none
  | .concludeElection preGatherTerm elected => do
    let rf ← (concludeElection rf preGatherTerm elected).toOption
    return (rf, none)
  | .advanceCommitIndex => do
    let rf ← (advanceCommitIndex rf).toOption
    return (rf, none)
  | .apply =>
    if rf.lastApplied < rf.commitIndex then do
      let (rf, msg) ← (apply rf).toOption
      return (rf, some msg)
    else none
  | .crash => some (make rf.peersCount rf.me rf.persister, none)

inductive Ran (rf : Raft C) : Section C → Raft C → Option (ApplyMsg C) → Prop
  | start (command : Option C) (rf' : Raft C) (r : ℤ × ℕ × Bool)
      (h : start rf command = .ok (rf', r)) : Ran rf (.start command) rf' none
  | snapshot (index : ℤ) (bytes : Bytes) (rf' : Raft C) (h : snapshot rf index bytes = .ok rf') :
      Ran rf (.snapshot index bytes) rf' none
  | requestVote (args : RequestVoteArgs) (rf' : Raft C) (reply : RequestVoteReply)
      (h : requestVote rf args = .ok (rf', reply)) : Ran rf (.requestVote args) rf' none
  | appendEntries (args : AppendEntriesArgs C) (rf' : Raft C) (reply : AppendEntriesReply)
      (h : appendEntries rf args = .ok (rf', reply)) : Ran rf (.appendEntries args) rf' none
  | installSnapshot (args : InstallSnapshotArgs) (rf' : Raft C) (reply : InstallSnapshotReply)
      (h : installSnapshot rf args = .ok (rf', reply)) : Ran rf (.installSnapshot args) rf' none
  | handleHigherTerm (term : ℕ) : Ran rf (.handleHigherTerm term) (handleHigherTerm rf term) none
  | handleAppendReply (server : ℕ) (args : AppendEntriesArgs C) (reply : AppendEntriesReply)
      (rf' : Raft C) (h : handleAppendReply rf server args reply = .ok rf') :
      Ran rf (.handleAppendReply server args reply) rf' none
  | election (rf' : Raft C) (args : RequestVoteArgs) (h : election rf = .ok (rf', args)) :
      Ran rf .election rf' none
  | concludeElection (preGatherTerm : ℕ) (elected : Bool) (rf' : Raft C)
      (h : concludeElection rf preGatherTerm elected = .ok rf') :
      Ran rf (.concludeElection preGatherTerm elected) rf' none
  | advanceCommitIndex (rf' : Raft C) (h : advanceCommitIndex rf = .ok rf') :
      Ran rf .advanceCommitIndex rf' none
  | apply (rf' : Raft C) (msg : ApplyMsg C) (hs : rf.lastApplied < rf.commitIndex)
      (h : apply rf = .ok (rf', msg)) : Ran rf .apply rf' (some msg)
  | crash : Ran rf .crash (make rf.peersCount rf.me rf.persister) none

theorem run_ran (s : Section C) (m : Option (ApplyMsg C)) (h : run rf s = some (rf', m)) :
    Ran rf s rf' m := by
  cases s with
  | start command =>
    simp only [run, Option.bind_eq_bind, Option.bind_eq_some_iff, to_option_some, Option.pure_def,
      Option.some.injEq, Prod.mk.injEq] at h
    obtain ⟨⟨rf1,r⟩,h,rfl,rfl⟩ := h
    exact .start command _ r h
  | snapshot index bytes =>
    simp only [run, Option.bind_eq_bind, Option.bind_eq_some_iff, to_option_some, Option.pure_def,
      Option.some.injEq, Prod.mk.injEq] at h
    obtain ⟨rf1,h,rfl,rfl⟩ := h
    exact .snapshot index bytes _ h
  | requestVote args =>
    simp only [run, Option.bind_eq_bind, Option.bind_eq_some_iff, to_option_some, Option.pure_def,
      Option.some.injEq, Prod.mk.injEq] at h
    obtain ⟨⟨rf1,r⟩,h,rfl,rfl⟩ := h
    exact .requestVote args _ r h
  | appendEntries args =>
    simp only [run, Option.bind_eq_bind, Option.bind_eq_some_iff, to_option_some, Option.pure_def,
      Option.some.injEq, Prod.mk.injEq] at h
    obtain ⟨⟨rf1,r⟩,h,rfl,rfl⟩ := h
    exact .appendEntries args _ r h
  | installSnapshot args =>
    simp only [run, Option.bind_eq_bind, Option.bind_eq_some_iff, to_option_some, Option.pure_def,
      Option.some.injEq, Prod.mk.injEq] at h
    obtain ⟨⟨rf1,r⟩,h,rfl,rfl⟩ := h
    exact .installSnapshot args _ r h
  | handleHigherTerm term =>
    simp only [run, Option.some.injEq, Prod.mk.injEq] at h
    obtain ⟨rfl,rfl⟩ := h
    exact .handleHigherTerm term
  | handleAppendReply server args reply =>
    simp only [run, Option.bind_eq_bind, Option.bind_eq_some_iff, to_option_some, Option.pure_def,
      Option.some.injEq, Prod.mk.injEq] at h
    obtain ⟨rf1,h,rfl,rfl⟩ := h
    exact .handleAppendReply server args reply _ h
  | election =>
    simp only [run, Option.ite_none_right_eq_some, Option.bind_eq_bind, Option.bind_eq_some_iff,
      to_option_some, Option.pure_def, Option.some.injEq, Prod.mk.injEq] at h
    obtain ⟨-,⟨rf1,r⟩,h,rfl,rfl⟩ := h
    exact .election _ r h
  | concludeElection preGatherTerm elected =>
    simp only [run, Option.bind_eq_bind, Option.bind_eq_some_iff, to_option_some, Option.pure_def,
      Option.some.injEq, Prod.mk.injEq] at h
    obtain ⟨rf1,h,rfl,rfl⟩ := h
    exact .concludeElection preGatherTerm elected _ h
  | advanceCommitIndex =>
    simp only [run, Option.bind_eq_bind, Option.bind_eq_some_iff, to_option_some, Option.pure_def,
      Option.some.injEq, Prod.mk.injEq] at h
    obtain ⟨rf1,h,rfl,rfl⟩ := h
    exact .advanceCommitIndex _ h
  | apply =>
    simp only [run, Option.ite_none_right_eq_some, Option.bind_eq_bind, Option.bind_eq_some_iff,
      to_option_some, Option.pure_def, Option.some.injEq, Prod.mk.injEq] at h
    obtain ⟨hs,⟨rf1,msg⟩,h,rfl,rfl⟩ := h
    exact .apply _ msg hs h
  | crash =>
    simp only [run, Option.some.injEq, Prod.mk.injEq] at h
    obtain ⟨rfl,rfl⟩ := h
    exact .crash

end Mitdist.RaftInstance
