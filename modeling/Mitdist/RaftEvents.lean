import Mitdist.RaftCluster
import Mitdist.RaftOutcomes

/-!
# What each event can do

An enabled event is described by the calls it reads, the section that ran and
the cluster that it leaves, one case per event. Proofs about steps of a
cluster work with these cases and never unfold the step function.
-/

set_option autoImplicit false

namespace Mitdist.RaftEvents
open Mitdist.RaftPeer Mitdist.RaftHandlers Mitdist.RaftCluster Mitdist.RaftOutcomes

variable {C : Type}

inductive Runs (n : ℕ) (c : Cluster C) : Event C → Cluster C → Prop
  | election (i : ℕ) (rf : Raft C) (args : RequestVoteArgs) (hi : i < n)
      (hs : (c.servers i).state ≠ .leader) (h : election (c.servers i) = .ok (rf, args)) :
      Runs n c (.election i) { withServer c i rf with
        elections := c.elections ++ [newElection n i (c.epoch i) args] }
  | requestVote (k j : ℕ) (e : Election) (rf : Raft C) (reply : RequestVoteReply)
      (he : c.elections[k]? = some e) (hj : j < n) (hr : (e.calls j).reply = none)
      (h : requestVote (c.servers j) e.args = .ok (rf, reply)) :
      Runs n c (.requestVote k j) (withElection (withServer c j rf) k
        (withCall e j { e.calls j with reply := some reply }))
  | requestVoteReply (k j : ℕ) (e : Election) (reply : RequestVoteReply)
      (he : c.elections[k]? = some e) (hr : (e.calls j).reply = some reply)
      (hs : (e.calls j).stage = .waiting) :
      Runs n c (.requestVoteReply k j)
        (withElection (withServer c e.me (handleHigherTerm (c.servers e.me) reply.term)) k
          (withCall e j { e.calls j with stage := .answered }))
  | requestVoteFailed (k j : ℕ) (e : Election) (he : c.elections[k]? = some e)
      (hs : (e.calls j).stage = .waiting) :
      Runs n c (.requestVoteFailed k j) (withElection c k
        { withCall e j { e.calls j with stage := .finished } with finished := e.finished + 1 })
  | countVote (k j : ℕ) (e : Election) (reply : RequestVoteReply)
      (he : c.elections[k]? = some e) (hr : (e.calls j).reply = some reply)
      (hs : (e.calls j).stage = .answered) :
      Runs n c (.countVote k j) (withElection c k
        { withCall e j { e.calls j with stage := .finished } with
          count := if reply.voteGranted then e.count + 1 else e.count
          finished := e.finished + 1 })
  | gatherVotes (k : ℕ) (e : Election) (he : c.elections[k]? = some e) :
      Runs n c (.gatherVotes k)
        (withElection c k { e with elected := some (e.count ≥ majority (c.servers e.me)) })
  | concludeElection (k : ℕ) (e : Election) (elected : Bool) (rf : Raft C)
      (he : c.elections[k]? = some e) (hel : e.elected = some elected)
      (h : concludeElection (c.servers e.me) e.args.term elected = .ok rf) :
      Runs n c (.concludeElection k)
        (withElection (withServer c e.me rf) k { e with concluded := true })
  | appendMissingEntries (i term server : ℕ) (request : Option (Request C)) (hi : i < n)
      (hs : server < n) (hne : server ≠ i)
      (h : appendMissingEntries (c.servers i) term server = .ok request) :
      Runs n c (.appendMissingEntries i term server) (send c i server request)
  | appendEntries (k : ℕ) (r : Call (AppendEntriesArgs C) AppendEntriesReply) (rf : Raft C)
      (reply : AppendEntriesReply) (hr : c.appendCalls[k]? = some r) (hn : r.reply = none)
      (h : appendEntries (c.servers r.callee) r.args = .ok (rf, reply)) :
      Runs n c (.appendEntries k) { withServer c r.callee rf with
        appendCalls := c.appendCalls.set k { r with reply := some reply } }
  | handleAppendReply (k : ℕ) (r : Call (AppendEntriesArgs C) AppendEntriesReply) (rf : Raft C)
      (reply : AppendEntriesReply) (hr : c.appendCalls[k]? = some r) (hy : r.reply = some reply)
      (h : handleAppendReply (c.servers r.caller) r.callee r.args reply = .ok rf) :
      Runs n c (.handleAppendReply k) { withServer c r.caller rf with
        appendCalls := c.appendCalls.set k { r with returned := true } }
  | installSnapshot (k : ℕ) (r : Call InstallSnapshotArgs InstallSnapshotReply) (rf : Raft C)
      (reply : InstallSnapshotReply) (hr : c.snapshotCalls[k]? = some r)
      (h : installSnapshot (c.servers r.callee) r.args = .ok (rf, reply)) :
      Runs n c (.installSnapshot k) { withServer c r.callee rf with
        snapshotCalls := c.snapshotCalls.set k { r with reply := some reply } }
  | installSnapshotReply (k : ℕ) (r : Call InstallSnapshotArgs InstallSnapshotReply)
      (reply : InstallSnapshotReply) (hr : c.snapshotCalls[k]? = some r)
      (hy : r.reply = some reply) :
      Runs n c (.installSnapshotReply k)
        { withServer c r.caller (handleHigherTerm (c.servers r.caller) reply.term) with
          snapshotCalls := c.snapshotCalls.set k { r with returned := true } }
  | start (i : ℕ) (command : Option C) (rf : Raft C) (index : ℤ) (term : ℕ) (isLeader : Bool)
      (hi : i < n) (h : start (c.servers i) command = .ok (rf, index, term, isLeader)) :
      Runs n c (.start i command) { withServer c i rf with
        started := c.started ++ [⟨i, command, index, term, isLeader⟩] }
  | advanceCommitIndex (i : ℕ) (rf : Raft C) (hi : i < n)
      (h : advanceCommitIndex (c.servers i) = .ok rf) :
      Runs n c (.advanceCommitIndex i) (withServer c i rf)
  | apply (i : ℕ) (rf : Raft C) (msg : ApplyMsg C) (hi : i < n)
      (hs : (c.servers i).lastApplied < (c.servers i).commitIndex)
      (h : apply (c.servers i) = .ok (rf, msg)) :
      Runs n c (.apply i) { withServer c i rf with applied := c.applied ++ [(i, msg)] }
  | snapshot (i : ℕ) (index : ℤ) (bytes : Bytes) (rf : Raft C) (hi : i < n)
      (h : snapshot (c.servers i) index bytes = .ok rf) :
      Runs n c (.snapshot i index bytes) (withServer c i rf)
  | crash (i : ℕ) (hi : i < n) :
      Runs n c (.crash i) { withServer c i (make n i (c.servers i).persister) with
        epoch := Function.update c.epoch i (c.epoch i + 1) }

theorem step_runs (n : ℕ) (c c' : Cluster C) (e : Event C) (h : step n c e = some c') :
    Runs n c e c' := by
  cases e with
  | election i =>
    simp only [step, Option.ite_none_right_eq_some, Option.bind_eq_bind, Option.bind_eq_some_iff,
      to_option_some, Option.some.injEq] at h
    obtain ⟨⟨hi,hs⟩,⟨rf,args⟩,h,rfl⟩ := h
    exact .election i rf args hi hs h
  | requestVote k j =>
    simp only [step, Option.ite_none_right_eq_some, Option.bind_eq_bind, Option.bind_eq_some_iff,
      to_option_some, Option.some.injEq] at h
    obtain ⟨e,he,⟨hj,-,hr⟩,⟨rf,reply⟩,h,rfl⟩ := h
    exact .requestVote k j e rf reply he hj hr h
  | requestVoteReply k j =>
    simp only [step, Option.ite_none_right_eq_some, Option.bind_eq_bind, Option.bind_eq_some_iff,
      Option.some.injEq] at h
    obtain ⟨e,he,reply,hr,⟨-,hs⟩,rfl⟩ := h
    exact .requestVoteReply k j e reply he hr hs
  | requestVoteFailed k j =>
    simp only [step, Option.ite_none_right_eq_some, Option.bind_eq_bind, Option.bind_eq_some_iff,
      Option.some.injEq] at h
    obtain ⟨e,he,⟨-,hs⟩,rfl⟩ := h
    exact .requestVoteFailed k j e he hs
  | countVote k j =>
    simp only [step, Option.ite_none_right_eq_some, Option.bind_eq_bind, Option.bind_eq_some_iff,
      Option.some.injEq] at h
    obtain ⟨e,he,reply,hr,⟨-,hs⟩,rfl⟩ := h
    exact .countVote k j e reply he hr hs
  | gatherVotes k =>
    simp only [step, Option.ite_none_right_eq_some, Option.bind_eq_bind, Option.bind_eq_some_iff,
      Option.some.injEq] at h
    obtain ⟨e,he,-,rfl⟩ := h
    exact .gatherVotes k e he
  | concludeElection k =>
    simp only [step, Option.ite_none_right_eq_some, Option.bind_eq_bind, Option.bind_eq_some_iff,
      to_option_some, Option.some.injEq] at h
    obtain ⟨e,he,elected,hel,-,rf,h,rfl⟩ := h
    exact .concludeElection k e elected rf he hel h
  | appendMissingEntries i term server =>
    simp only [step, Option.ite_none_right_eq_some, Option.bind_eq_bind, Option.bind_eq_some_iff,
      to_option_some, Option.some.injEq] at h
    obtain ⟨⟨hi,hs,hne⟩,request,h,rfl⟩ := h
    exact .appendMissingEntries i term server request hi hs hne h
  | appendEntries k =>
    simp only [step, Option.ite_none_right_eq_some, Option.bind_eq_bind, Option.bind_eq_some_iff,
      to_option_some, Option.some.injEq] at h
    obtain ⟨r,hr,hn,⟨rf,reply⟩,h,rfl⟩ := h
    exact .appendEntries k r rf reply hr hn h
  | handleAppendReply k =>
    simp only [step, Option.ite_none_right_eq_some, Option.bind_eq_bind, Option.bind_eq_some_iff,
      to_option_some, Option.some.injEq] at h
    obtain ⟨r,hr,reply,hy,-,rf,h,rfl⟩ := h
    exact .handleAppendReply k r rf reply hr hy h
  | installSnapshot k =>
    simp only [step, Option.ite_none_right_eq_some, Option.bind_eq_bind, Option.bind_eq_some_iff,
      to_option_some, Option.some.injEq] at h
    obtain ⟨r,hr,-,⟨rf,reply⟩,h,rfl⟩ := h
    exact .installSnapshot k r rf reply hr h
  | installSnapshotReply k =>
    simp only [step, Option.ite_none_right_eq_some, Option.bind_eq_bind, Option.bind_eq_some_iff,
      Option.some.injEq] at h
    obtain ⟨r,hr,reply,hy,-,rfl⟩ := h
    exact .installSnapshotReply k r reply hr hy
  | start i command =>
    simp only [step, Option.ite_none_right_eq_some, Option.bind_eq_bind, Option.bind_eq_some_iff,
      to_option_some, Option.some.injEq] at h
    obtain ⟨hi,⟨rf,index,term,isLeader⟩,h,rfl⟩ := h
    exact .start i command rf index term isLeader hi h
  | advanceCommitIndex i =>
    simp only [step, Option.ite_none_right_eq_some, Option.bind_eq_bind, Option.bind_eq_some_iff,
      to_option_some, Option.some.injEq] at h
    obtain ⟨hi,rf,h,rfl⟩ := h
    exact .advanceCommitIndex i rf hi h
  | apply i =>
    simp only [step, Option.ite_none_right_eq_some, Option.bind_eq_bind, Option.bind_eq_some_iff,
      to_option_some, Option.some.injEq] at h
    obtain ⟨⟨hi,hs⟩,⟨rf,msg⟩,h,rfl⟩ := h
    exact .apply i rf msg hi hs h
  | snapshot i index bytes =>
    simp only [step, Option.ite_none_right_eq_some, Option.bind_eq_bind, Option.bind_eq_some_iff,
      to_option_some, Option.some.injEq] at h
    obtain ⟨hi,rf,h,rfl⟩ := h
    exact .snapshot i index bytes rf hi h
  | crash i =>
    simp only [step, Option.ite_none_right_eq_some, Option.some.injEq] at h
    obtain ⟨hi,rfl⟩ := h
    exact .crash i hi

/-- A request in flight was there before or has just been sent. -/
theorem runs_append_calls (n : ℕ) (c c' : Cluster C) (e : Event C) (hr : Runs n c e c')
    (r : Call (AppendEntriesArgs C) AppendEntriesReply) (h : r ∈ c'.appendCalls) :
    (∃ r0 ∈ c.appendCalls, r0.args = r.args) ∨
      ∃ i term server, appendMissingEntries (c.servers i) term server =
        .ok (some (.appendEntries r.args)) := by
  cases hr with
  | appendMissingEntries i term server request hi hs hne he =>
    rcases request with - | args | args
    · exact Or.inl ⟨r,h,rfl⟩
    · rcases List.mem_append.mp h with h | h
      · exact Or.inl ⟨r,h,rfl⟩
      · rw [List.mem_singleton.mp h]
        exact Or.inr ⟨i,term,server,he⟩
    · exact Or.inl ⟨r,h,rfl⟩
  | appendEntries k r0 rf reply hk hn he =>
    rcases List.mem_or_eq_of_mem_set h with h | rfl
    · exact Or.inl ⟨r,h,rfl⟩
    · exact Or.inl ⟨r0,List.mem_of_getElem? hk,rfl⟩
  | handleAppendReply k r0 rf reply hk hy he =>
    rcases List.mem_or_eq_of_mem_set h with h | rfl
    · exact Or.inl ⟨r,h,rfl⟩
    · exact Or.inl ⟨r0,List.mem_of_getElem? hk,rfl⟩
  | _ => exact Or.inl ⟨r,h,rfl⟩

theorem runs_snapshot_calls (n : ℕ) (c c' : Cluster C) (e : Event C) (hr : Runs n c e c')
    (r : Call InstallSnapshotArgs InstallSnapshotReply) (h : r ∈ c'.snapshotCalls) :
    (∃ r0 ∈ c.snapshotCalls, r0.args = r.args) ∨
      ∃ i term server, appendMissingEntries (c.servers i) term server =
        .ok (some (.installSnapshot r.args)) := by
  cases hr with
  | appendMissingEntries i term server request hi hs hne he =>
    rcases request with - | args | args
    · exact Or.inl ⟨r,h,rfl⟩
    · exact Or.inl ⟨r,h,rfl⟩
    · rcases List.mem_append.mp h with h | h
      · exact Or.inl ⟨r,h,rfl⟩
      · rw [List.mem_singleton.mp h]
        exact Or.inr ⟨i,term,server,he⟩
  | installSnapshot k r0 rf reply hk he =>
    rcases List.mem_or_eq_of_mem_set h with h | rfl
    · exact Or.inl ⟨r,h,rfl⟩
    · exact Or.inl ⟨r0,List.mem_of_getElem? hk,rfl⟩
  | installSnapshotReply k r0 reply hk hy =>
    rcases List.mem_or_eq_of_mem_set h with h | rfl
    · exact Or.inl ⟨r,h,rfl⟩
    · exact Or.inl ⟨r0,List.mem_of_getElem? hk,rfl⟩
  | _ => exact Or.inl ⟨r,h,rfl⟩

end Mitdist.RaftEvents
