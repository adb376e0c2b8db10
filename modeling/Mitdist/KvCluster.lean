import Mitdist.KvService
import Mitdist.KvSnapshots
import Mitdist.StateMachineSafety

/-!
# Clerks, key/value servers and their Raft cluster

Every server is one process: a Raft instance, the key/value server that it
feeds and the handlers of the clerks' requests. The instance's apply loop puts
a message on the channel and waits until the server's loop receives it, which
handles it later. An operation that is not a duplicate is submitted to the
instance while the server's mutex is held. A clerk makes one call at a time and
sends it to the server that it takes for the leader until a reply ends the
call; a request is executed at most once, at any later time, and an attempt may
be answered with any reply of that server to the operation. The system records
the calls and returns of the clerks, and the commands that were first put on a
channel for their index.
-/

set_option autoImplicit false

namespace Mitdist.KvCluster
open Mitdist.RaftPeer Mitdist.RaftCluster Mitdist.KvServer Mitdist.KvHandlers Mitdist.Linearization
open Mitdist.KvService (Call accepts)

/-- `outbox` is the message that the instance's loop has put on the channel,
`inbox` the one that the server's loop has received and not yet handled, and
`polled` the term that was read from the instance and not yet stored. -/
structure Node where
  server : Server
  outbox : Option (ApplyMsg Op)
  inbox : Option (ApplyMsg Op)
  polled : Option ℕ

def startNode : Node := ⟨launch,none,none,none⟩

/-- A clerk is between calls, at the top of the loop of a call, or waits for
the server to which it has sent the request. -/
inductive Activity where
  | idle
  | calling (op : Op)
  | waiting (op : Op) (lid : ℕ)
  deriving DecidableEq, Repr

structure Clerk where
  leaderId : ℕ
  reqN : ℤ
  activity : Activity
  deriving DecidableEq, Repr

/-- `r` is the number that `nrand` returns. -/
def tryNewLeader (nServers : ℕ) (ck : Clerk) (oldLeader r : ℕ) : Clerk :=
  if ck.leaderId = oldLeader then { ck with leaderId := r % nServers } else ck

def makeClerk (nServers r : ℕ) : Clerk := tryNewLeader nServers ⟨0,-1,.idle⟩ 0 r

structure System where
  cluster : Cluster Op
  nodes : ℕ → Node
  clerks : ℤ → Clerk
  requests : List (ℕ × Op)
  replies : List (ℕ × Reply)
  agreed : List Op
  history : List (Act Op String)

inductive Event where
  | raft (e : RaftCluster.Event Op)
  | apply (i : ℕ)
  | receive (i : ℕ)
  | handle (i : ℕ)
  | initSnapshot (i : ℕ)
  | readTerm (i : ℕ)
  | storeTerm (i : ℕ)
  | operation (k : ℕ)
  | exit (k : ℕ)
  | handler (i : ℕ) (a : Action)
  | restart (i : ℕ)
  | call (id : ℤ) (c : Call)
  | send (id : ℤ)
  | reply (id : ℤ) (k r : ℕ)
  | failed (id : ℤ) (r : ℕ)
  deriving DecidableEq

def initial (n : ℕ) (nrand : ℤ → ℕ) : System where
  cluster := RaftCluster.initial Op n
  nodes _ := startNode
  clerks id := makeClerk n (nrand id)
  requests := []
  replies := []
  agreed := []
  history := []

/-- The sections of an instance that no server takes part in. -/
def internal : RaftCluster.Event Op → Bool
  | .start _ _ | .apply _ | .snapshot _ _ _ | .crash _ => false
  | _ => true

/-- The sections of the handlers after their operation was submitted. -/
def waits : Action → Bool
  | .loop | .turn | .wake _ | .handlerDone => true
  | .operation _ _ | .apply _ | .refreshRaftTerm _ => false

def withNode (x : System) (i : ℕ) (node : Node) : System :=
  { x with nodes := Function.update x.nodes i node }

def withClerk (x : System) (id : ℤ) (ck : Clerk) : System :=
  { x with clerks := Function.update x.clerks id ck }

/-- The message is the first one with its index. -/
def agree (agreed : List Op) (m : ApplyMsg Op) : List Op :=
  if m.commandIndex = agreed.length + 1 then agreed ++ m.command.toList else agreed

section
variable (encode : Requests × Values → Bytes) (decode : Bytes → Option (Requests × Values)) (n : ℕ)

def serve (x : System) (i : ℕ) (a : Action) : Option System := do
  let (server, reply) ← KvHandlers.step decode (x.nodes i).server a
  return { withNode x i { x.nodes i with server := server } with
    replies := x.replies ++ reply.toList.map (fun r => (i, r)) }

def restart (x : System) (i : ℕ) : Option System := do
  let cluster ← RaftCluster.step n x.cluster (.crash i)
  return { withNode x i startNode with cluster := cluster }

/-- The first part of an operation that is no duplicate: the cluster after
`Start`, and what `Start` returned. -/
def submit (x : System) (i : ℕ) (op : Op) : Option (Cluster Op × Started Op) :=
  if (x.nodes i).server.mu = .free ∧
      isDuplicate (x.nodes i).server.kv.lastRequest op = false then do
    let cluster ← RaftCluster.step n x.cluster (.start i (some op))
    let s ← cluster.started.getLast?
    return (cluster, s)
  else none

/-- A process whose handler finds another one registered for its index exits
after `Start` has appended the operation. -/
def step (x : System) : Event → Option System
  | .raft e =>
    if internal e then do
      let cluster ← RaftCluster.step n x.cluster e
      return { x with cluster := cluster }
    else none
  | .apply i =>
    if (x.nodes i).outbox = none then do
      let cluster ← RaftCluster.step n x.cluster (.apply i)
      let (_, m) ← cluster.applied.getLast?
      return { withNode x i { x.nodes i with outbox := some m } with
        cluster := cluster
        agreed := agree x.agreed m }
    else none
  | .receive i => do
    let m ← (x.nodes i).outbox
    if (x.nodes i).inbox = none ∧ (x.nodes i).server.receives = 0 then
      return withNode x i { x.nodes i with outbox := none, inbox := some m }
    else none
  | .handle i => do
    let m ← (x.nodes i).inbox
    serve decode (withNode x i { x.nodes i with inbox := none }) i (.apply m)
  | .initSnapshot i =>
    if (x.nodes i).server.mu = .free then do
      let (kv, index) ← KvServer.initSnapshot (x.nodes i).server.kv
      let cluster ← RaftCluster.step n x.cluster
        (.snapshot i index (encode (kv.lastRequest, kv.values)))
      let server := { (x.nodes i).server with kv := kv }
      return { withNode x i { x.nodes i with server := server } with cluster := cluster }
    else none
  | .readTerm i =>
    if (x.nodes i).polled = none then
      some (withNode x i { x.nodes i with polled := some (x.cluster.servers i).currentTerm })
    else none
  | .storeTerm i => do
    let term ← (x.nodes i).polled
    serve decode (withNode x i { x.nodes i with polled := none }) i (.refreshRaftTerm term)
  | .operation k => do
    let (i, op) ← x.requests[k]?
    let x := { x with requests := x.requests.eraseIdx k }
    if isDuplicate (x.nodes i).server.kv.lastRequest op then
      serve decode x i (.operation op (0, 0, false))
    else do
      let (cluster, s) ← submit n x i op
      serve decode { x with cluster := cluster } i (.operation op (s.index, s.term, s.isLeader))
  | .exit k => do
    let (i, op) ← x.requests[k]?
    let (cluster, s) ← submit n x i op
    if s.isLeader = true ∧ (x.nodes i).server.kv.nWaitingHandlers s.index ≠ 0 then
      restart n { x with cluster := cluster, requests := x.requests.eraseIdx k } i
    else none
  | .handler i a => if waits a then serve decode x i a else none
  | .restart i => restart n x i
  | .call id c =>
    if (x.clerks id).activity = .idle then
      let reqN := (x.clerks id).reqN + 1
      let op := c.operation id reqN
      some { withClerk x id { x.clerks id with reqN := reqN, activity := .calling op } with
        history := x.history ++ [.invoke op] }
    else none
  | .send id =>
    match (x.clerks id).activity with
    | .calling op =>
      let lid := (x.clerks id).leaderId
      if lid < n then
        some { withClerk x id { x.clerks id with activity := .waiting op lid } with
          requests := x.requests ++ [(lid, op)] }
      else none
    | _ => none
  | .reply id k r =>
    match (x.clerks id).activity with
    | .waiting op lid => do
      let (i, reply) ← x.replies[k]?
      if i = lid ∧ reply.op = op then
        if accepts op reply.err then
          return { withClerk x id { x.clerks id with activity := .idle } with
            history := x.history ++ [.respond op reply.value] }
        else
          return withClerk x id
            (tryNewLeader n { x.clerks id with activity := .calling op } lid r)
      else none
    | _ => none
  | .failed id r =>
    match (x.clerks id).activity with
    | .waiting op lid =>
      some (withClerk x id (tryNewLeader n { x.clerks id with activity := .calling op } lid r))
    | _ => none

end

end Mitdist.KvCluster
