import Mitdist.RaftHandlers
import Mitdist.TransitionSystem
import Mathlib.Logic.Function.Basic

/-!
# A cluster of Raft peers over a lossy network

An event is one lock-protected section on one peer, or one step of the
goroutine that gathers the votes of an election. An RPC is executed at most
once, at any later time or never, and its reply is handled at most once and
only by the instance that sent it. A peer that faults has no successor state;
what follows a fault is the crash event, which is always enabled. The cluster
also records every message put on an apply channel and every call of `Start`.
-/

set_option autoImplicit false

namespace Mitdist.RaftCluster
open Mitdist.RaftPeer Mitdist.RaftHandlers

inductive Stage where
  | waiting
  | answered
  | finished
  deriving DecidableEq, Repr

structure VoteCall where
  reply : Option RequestVoteReply := none
  stage : Stage := .waiting
  deriving DecidableEq, Repr

structure Election where
  me : ℕ
  epoch : ℕ
  args : RequestVoteArgs
  calls : ℕ → VoteCall
  count : ℕ := 1
  finished : ℕ := 1
  elected : Option Bool := none
  concluded : Bool := false

structure Call (A R : Type) where
  caller : ℕ
  epoch : ℕ
  callee : ℕ
  args : A
  reply : Option R := none
  returned : Bool := false

structure Started (C : Type) where
  server : ℕ
  command : Option C
  index : ℤ
  term : ℕ
  isLeader : Bool
  deriving DecidableEq, Repr

structure Cluster (C : Type) where
  servers : ℕ → Raft C
  epoch : ℕ → ℕ
  elections : List Election
  appendCalls : List (Call (AppendEntriesArgs C) AppendEntriesReply)
  snapshotCalls : List (Call InstallSnapshotArgs InstallSnapshotReply)
  applied : List (ℕ × ApplyMsg C)
  started : List (Started C)

inductive Event (C : Type) where
  | election (i : ℕ)
  | requestVote (k j : ℕ)
  | requestVoteReply (k j : ℕ)
  | requestVoteFailed (k j : ℕ)
  | countVote (k j : ℕ)
  | gatherVotes (k : ℕ)
  | concludeElection (k : ℕ)
  | appendMissingEntries (i term server : ℕ)
  | appendEntries (k : ℕ)
  | handleAppendReply (k : ℕ)
  | installSnapshot (k : ℕ)
  | installSnapshotReply (k : ℕ)
  | start (i : ℕ) (command : Option C)
  | advanceCommitIndex (i : ℕ)
  | apply (i : ℕ)
  | snapshot (i : ℕ) (index : ℤ) (snapshot : Bytes)
  | crash (i : ℕ)
  deriving DecidableEq, Repr

variable {C : Type}

def initial (C : Type) (n : ℕ) : Cluster C where
  servers i := make n i {}
  epoch _ := 0
  elections := []
  appendCalls := []
  snapshotCalls := []
  applied := []
  started := []

def withServer (c : Cluster C) (i : ℕ) (rf : Raft C) : Cluster C :=
  { c with servers := Function.update c.servers i rf }

def newElection (n i epoch : ℕ) (args : RequestVoteArgs) : Election where
  me := i
  epoch := epoch
  args := args
  calls j := if j < n ∧ j ≠ i then {} else { stage := .finished }

def withCall (e : Election) (j : ℕ) (v : VoteCall) : Election :=
  { e with calls := Function.update e.calls j v }

def withElection (c : Cluster C) (k : ℕ) (e : Election) : Cluster C :=
  { c with elections := c.elections.set k e }

def concludeElection (rf : Raft C) (preGatherTerm : ℕ) (elected : Bool) : Except Fault (Raft C) :=
  if rf.state = .candidate ∧ rf.currentTerm = preGatherTerm ∧ elected = true then becomeLeader rf
  else .ok rf

def send (c : Cluster C) (i server : ℕ) : Option (Request C) → Cluster C
  | none => c
  | some (.appendEntries args) => { c with
      appendCalls := c.appendCalls ++
        [{ caller := i, epoch := c.epoch i, callee := server, args := args }] }
  | some (.installSnapshot args) => { c with
      snapshotCalls := c.snapshotCalls ++
        [{ caller := i, epoch := c.epoch i, callee := server, args := args }] }

def step (n : ℕ) (c : Cluster C) : Event C → Option (Cluster C)
  | .election i =>
    if i < n ∧ (c.servers i).state ≠ .leader then do
      let (rf, args) ← (election (c.servers i)).toOption
      some { withServer c i rf with elections := c.elections ++ [newElection n i (c.epoch i) args] }
    else none
  | .requestVote k j => do
    let e ← c.elections[k]?
    if j < n ∧ j ≠ e.me ∧ (e.calls j).reply = none then
      let (rf, reply) ← (requestVote (c.servers j) e.args).toOption
      some (withElection (withServer c j rf) k
        (withCall e j { e.calls j with reply := some reply }))
    else none
  | .requestVoteReply k j => do
    let e ← c.elections[k]?
    let reply ← (e.calls j).reply
    if e.epoch = c.epoch e.me ∧ (e.calls j).stage = .waiting then
      some (withElection (withServer c e.me (handleHigherTerm (c.servers e.me) reply.term)) k
        (withCall e j { e.calls j with stage := .answered }))
    else none
  | .requestVoteFailed k j => do
    let e ← c.elections[k]?
    if e.epoch = c.epoch e.me ∧ (e.calls j).stage = .waiting then
      some (withElection c k
        { withCall e j { e.calls j with stage := .finished } with finished := e.finished + 1 })
    else none
  | .countVote k j => do
    let e ← c.elections[k]?
    let reply ← (e.calls j).reply
    if e.epoch = c.epoch e.me ∧ (e.calls j).stage = .answered then
      some (withElection c k { withCall e j { e.calls j with stage := .finished } with
        count := if reply.voteGranted then e.count + 1 else e.count
        finished := e.finished + 1 })
    else none
  | .gatherVotes k => do
    let e ← c.elections[k]?
    let m := majority (c.servers e.me)
    if e.epoch = c.epoch e.me ∧ e.elected = none ∧
        (e.count ≥ m ∨ e.finished = (c.servers e.me).peersCount) then
      some (withElection c k { e with elected := some (e.count ≥ m) })
    else none
  | .concludeElection k => do
    let e ← c.elections[k]?
    let elected ← e.elected
    if e.epoch = c.epoch e.me ∧ e.concluded = false then
      let rf ← (concludeElection (c.servers e.me) e.args.term elected).toOption
      some (withElection (withServer c e.me rf) k { e with concluded := true })
    else none
  | .appendMissingEntries i term server =>
    if i < n ∧ server < n ∧ server ≠ i then do
      let request ← (appendMissingEntries (c.servers i) term server).toOption
      some (send c i server request)
    else none
  | .appendEntries k => do
    let call ← c.appendCalls[k]?
    if call.reply = none then
      let (rf, reply) ← (appendEntries (c.servers call.callee) call.args).toOption
      some { withServer c call.callee rf with
        appendCalls := c.appendCalls.set k { call with reply := some reply } }
    else none
  | .handleAppendReply k => do
    let call ← c.appendCalls[k]?
    let reply ← call.reply
    if call.epoch = c.epoch call.caller ∧ call.returned = false then
      let rf ← (handleAppendReply (c.servers call.caller) call.callee call.args reply).toOption
      some { withServer c call.caller rf with
        appendCalls := c.appendCalls.set k { call with returned := true } }
    else none
  | .installSnapshot k => do
    let call ← c.snapshotCalls[k]?
    if call.reply = none then
      let (rf, reply) ← (installSnapshot (c.servers call.callee) call.args).toOption
      some { withServer c call.callee rf with
        snapshotCalls := c.snapshotCalls.set k { call with reply := some reply } }
    else none
  | .installSnapshotReply k => do
    let call ← c.snapshotCalls[k]?
    let reply ← call.reply
    if call.epoch = c.epoch call.caller ∧ call.returned = false then
      some { withServer c call.caller (handleHigherTerm (c.servers call.caller) reply.term) with
        snapshotCalls := c.snapshotCalls.set k { call with returned := true } }
    else none
  | .start i command =>
    if i < n then do
      let (rf, index, term, isLeader) ← (start (c.servers i) command).toOption
      some { withServer c i rf with
        started := c.started ++ [⟨i, command, index, term, isLeader⟩] }
    else none
  | .advanceCommitIndex i =>
    if i < n then do
      let rf ← (advanceCommitIndex (c.servers i)).toOption
      some (withServer c i rf)
    else none
  | .apply i =>
    if i < n ∧ (c.servers i).lastApplied < (c.servers i).commitIndex then do
      let (rf, msg) ← (apply (c.servers i)).toOption
      some { withServer c i rf with applied := c.applied ++ [(i, msg)] }
    else none
  | .snapshot i index bytes =>
    if i < n then do
      let rf ← (snapshot (c.servers i) index bytes).toOption
      some (withServer c i rf)
    else none
  | .crash i =>
    if i < n then
      some { withServer c i (make n i (c.servers i).persister) with
        epoch := Function.update c.epoch i (c.epoch i + 1) }
    else none

abbrev exec (n : ℕ) : Cluster C → List (Event C) → Option (Cluster C) :=
  TransitionSystem.exec (step n)

end Mitdist.RaftCluster
