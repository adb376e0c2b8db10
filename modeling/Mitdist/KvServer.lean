import Mitdist.RaftOutcomes
import Mathlib.Data.Finmap

/-!
# The key/value server

The tables and counters of a server and the sections that its mutex protects:
one iteration of the apply loop, the part of an operation before its handler
waits and the part after, one poll of the snapshot loop and of the term. What
`Start` returns and what a concurrent poll of the term stores are inputs. A
handler that has to tell the apply loop that it is done keeps the mutex until
the loop receives.
-/

set_option autoImplicit false

namespace Mitdist.KvServer
open Mitdist.RaftPeer

/-- The type of an operation is a string, of which the server knows three. -/
inductive OpType where
  | get
  | put
  | append
  | other (name : String) (h : name ∉ ["Get", "Put", "Append"])
  deriving DecidableEq, Repr

/-- `outdated` is the literal `"Outdated"`, and `unset` the empty string that
is the zero value of the type. -/
inductive Err where
  | ok
  | errNoKey
  | errWrongLeader
  | outdated
  | unset
  deriving DecidableEq, Repr

structure Op where
  type : OpType
  args : List String
  clientId : ℤ
  requestNumber : ℤ
  deriving DecidableEq, Repr

structure Result where
  requestNumber : ℤ := 0
  result : String := ""
  error : Err := .unset
  deriving DecidableEq, Repr

abbrev Values := Finmap (fun _ : String => String)
abbrev Requests := Finmap (fun _ : ℤ => Result)

def testEq (a b : List String) : Bool :=
  if a.length ≠ b.length then false else (a.zip b).all (fun x => x.1 = x.2)

def equals (op op2 : Op) : Bool :=
  op.type = op2.type ∧ testEq op.args op2.args ∧ op.clientId = op2.clientId ∧
    op.requestNumber = op2.requestNumber

structure GetArgs where
  clientId : ℤ
  requestNumber : ℤ
  key : String
  deriving DecidableEq, Repr

structure PutAppendArgs where
  clientId : ℤ
  requestNumber : ℤ
  key : String
  value : String
  op : OpType
  deriving DecidableEq, Repr

def GetArgs.toOperation (args : GetArgs) : Op :=
  ⟨.get,[args.key],args.clientId,args.requestNumber⟩

def PutAppendArgs.toOperation (args : PutAppendArgs) : Op :=
  ⟨args.op,[args.key, args.value],args.clientId,args.requestNumber⟩

structure KVServer where
  nWaitingHandlers : ℤ → ℤ
  lastApplyMsg : ApplyMsg Op
  values : Values
  lastRequest : Requests
  lastExecutedIndex : ℤ
  lastSnapshotIndex : ℤ
  raftT : ℕ

def startKVServer : KVServer where
  nWaitingHandlers _ := 0
  lastApplyMsg := {}
  values := ∅
  lastRequest := ∅
  lastExecutedIndex := -1
  lastSnapshotIndex := -1
  raftT := 0

def isDuplicate (lastRequest : Requests) (op : Op) : Bool :=
  match lastRequest.lookup op.clientId with
  | some r => r.requestNumber ≥ op.requestNumber
  | none => false

def duplicateResult (lastRequest : Requests) (op : Op) : Result × Bool :=
  match lastRequest.lookup op.clientId with
  | some r => if r.requestNumber = op.requestNumber then (r, true) else ({}, false)
  | none => ({}, false)

def execute (values : Values) (op : Op) : Except Fault (Values × String × Err) :=
  match op.type with
  | .get => do
    let key ← load op.args 0
    match values.lookup key with
    | none => return (values, "", .errNoKey)
    | some v => return (values, v, .ok)
  | .put => do
    let key ← load op.args 0
    let value ← load op.args 1
    return (values.insert key value, "", .ok)
  | .append => do
    let key ← load op.args 0
    let value ← load op.args 1
    return (values.insert key ((values.lookup key).getD "" ++ value), "", .ok)
  | .other _ _ => return (values, "", .ok)

def executeIfNew (kv : KVServer) (m : ApplyMsg Op) : Except Fault KVServer :=
  match m.command with
  | none => .error .typeAssertion
  | some op =>
    if isDuplicate kv.lastRequest op then .ok kv
    else do
      let (values, r, e) ← execute kv.values op
      return { kv with
        values := values
        lastRequest := kv.lastRequest.insert op.clientId ⟨op.requestNumber,r,e⟩
        lastExecutedIndex := max m.commandIndex kv.lastExecutedIndex }

/-- Decoding adds the encoded keys to the tables and keeps the others. -/
def setState (decode : Bytes → Option (Requests × Values)) (kv : KVServer) (snapshot : Bytes)
    (lastIndex : ℤ) : Except Fault KVServer :=
  if snapshot.length < 1 then .ok { kv with lastRequest := ∅, values := ∅ }
  else match decode snapshot with
    | none => .error (.fatal "KVServer cannot be stored from malformed snapshot.")
    | some (lastRequest, values) => .ok { kv with
        lastRequest := lastRequest ∪ kv.lastRequest
        values := values ∪ kv.values
        lastExecutedIndex := lastIndex
        lastSnapshotIndex := lastIndex }

/-- One iteration of the apply loop, and how many handlers it then waits for. -/
def apply (decode : Bytes → Option (Requests × Values)) (kv : KVServer) (m : ApplyMsg Op) :
    Except Fault (KVServer × ℤ) :=
  if m.commandValid = false then
    if m.snapshotValid = false then
      .error (.fatal "ApplyMsg with m.CommandValid==m.SnapshotValid==false")
    else if m.snapshotIndex > kv.lastExecutedIndex then do
      let kv ← setState decode kv m.snapshot m.commandIndex
      return (kv, 0)
    else .ok (kv, 0)
  else do
    let kv ← executeIfNew kv m
    return ({ kv with lastApplyMsg := m }, kv.nWaitingHandlers m.commandIndex)

inductive Outcome where
  | reply (value : String) (err : Err)
  | registered (id : ℤ) (term : ℕ)
  deriving DecidableEq, Repr

/-- An operation up to the loop in which its handler waits. `started` is what
`Start` returns if it is called. -/
def operation (kv : KVServer) (op : Op) (started : ℤ × ℕ × Bool) :
    Except Fault (KVServer × Outcome) :=
  if isDuplicate kv.lastRequest op then
    let (r, mostRecent) := duplicateResult kv.lastRequest op
    if mostRecent then .ok (kv, .reply r.result .ok) else .ok (kv, .reply "" .outdated)
  else
    let (id, t, isLeader) := started
    if isLeader = false then .ok (kv, .reply "" .errWrongLeader)
    else if kv.nWaitingHandlers id ≠ 0 then
      .error (.fatal s!"Some RPC is already waiting for {id}")
    else .ok ({ kv with
        nWaitingHandlers := Function.update kv.nWaitingHandlers id (kv.nWaitingHandlers id + 1) },
      .registered id t)

def keepsWaiting (kv : KVServer) (id : ℤ) (t : ℕ) : Bool :=
  t = kv.raftT ∧ kv.lastApplyMsg.commandIndex < id

/-- The reply of a handler that has left the loop in which it waits. -/
def handlersTurn (kv : KVServer) (op : Op) (t : ℕ) : Except Fault (String × Err) :=
  if t ≠ kv.raftT then .ok ("", .errWrongLeader)
  else match kv.lastApplyMsg.command with
    | none => .error .typeAssertion
    | some appliedOp =>
      if equals appliedOp op = false then .ok ("", .errWrongLeader)
      else
        let r := (kv.lastRequest.lookup op.clientId).getD {}
        .ok (r.result, r.error)

/-- The handler is deregistered, and has to meet the apply loop if the loop
waits for the handlers of this index. -/
def cleanupHandler (kv : KVServer) (id : ℤ) : KVServer × Bool :=
  ({ kv with
      nWaitingHandlers := Function.update kv.nWaitingHandlers id (kv.nWaitingHandlers id - 1) },
    kv.lastApplyMsg.commandIndex = id)

def refreshRaftTerm (kv : KVServer) (term : ℕ) : KVServer := { kv with raftT := term }

/-- One poll of the snapshot loop that finds the raft state large enough, and
the index for which it calls `Snapshot`. -/
def initSnapshot (kv : KVServer) : Option (KVServer × ℤ) :=
  if kv.lastExecutedIndex ≠ kv.lastSnapshotIndex then
    some ({ kv with lastSnapshotIndex := kv.lastExecutedIndex }, kv.lastExecutedIndex)
  else none

theorem equals_iff (op op2 : Op) : equals op op2 = true ↔ op = op2 := by
  have hargs : ∀ a b : List String, testEq a b = true ↔ a = b := by
    intro a
    induction a with
    | nil =>
      intro b
      cases b <;> simp [testEq]
    | cons x a ih =>
      intro b
      cases b with
      | nil => simp [testEq]
      | cons y b =>
        have := ih b
        simp only [testEq] at this ⊢
        simp only [List.length_cons, ne_eq, Nat.add_right_cancel_iff, List.zip_cons_cons,
          List.all_cons, List.cons.injEq] at this ⊢
        rw [← this]
        split_ifs <;> simp
  obtain ⟨t,a,c,r⟩ := op
  obtain ⟨t2,a2,c2,r2⟩ := op2
  simp [equals, hargs]

end Mitdist.KvServer
