import Mathlib.Data.Int.Notation
import Mathlib.Data.Nat.Notation
import Mathlib.Data.List.Basic

/-!
# The state of a Raft peer

Indices are integers, since `-1` names the position before the first entry.
A slice access out of range, a failed type assertion and a call of
`log.Fatalf` end the process: they are faults, and no state follows them.
Persisted bytes are the values that were encoded, so decoding is the identity.
The mutex, timers, condition variables and channels are left to the events
that use them.
-/

set_option autoImplicit false

namespace Mitdist.RaftPeer

inductive Fault where
  | indexOutOfRange
  | typeAssertion
  | fatal (message : String)
  deriving DecidableEq, Repr

abbrev Bytes := List UInt8

structure ApplyMsg (C : Type) where
  commandValid : Bool := false
  command : Option C := none
  commandIndex : ℤ := 0
  snapshotValid : Bool := false
  snapshot : Bytes := []
  snapshotTerm : ℕ := 0
  snapshotIndex : ℤ := 0
  deriving DecidableEq, Repr

structure LogEntry (C : Type) where
  index : ℤ
  term : ℕ
  command : Option C
  deriving DecidableEq, Repr

inductive State where
  | follower
  | candidate
  | leader
  deriving DecidableEq, Repr

structure Persisted (C : Type) where
  currentTerm : ℕ
  votedFor : Option ℕ
  log : List (LogEntry C)
  lastIncludedIndex : ℤ
  lastIncludedTerm : ℕ
  deriving DecidableEq, Repr

structure Persister (C : Type) where
  raftstate : Option (Persisted C) := none
  snapshot : Bytes := []
  deriving DecidableEq, Repr

structure Raft (C : Type) where
  persister : Persister C
  me : ℕ
  peersCount : ℕ
  currentTerm : ℕ
  votedFor : Option ℕ
  log : List (LogEntry C)
  lastIncludedIndex : ℤ
  lastIncludedTerm : ℕ
  baseIndex : ℤ
  state : State
  commitIndex : ℤ
  lastApplied : ℤ
  nextIndex : List ℤ
  matchIndex : List ℤ
  snapshot : Bytes
  snapshotInstalled : Bool
  deriving DecidableEq, Repr

variable {C : Type}

def load {α : Type} (s : List α) (i : ℤ) : Except Fault α :=
  if i < 0 then .error .indexOutOfRange
  else match s[i.toNat]? with
    | some x => .ok x
    | none => .error .indexOutOfRange

def store {α : Type} (s : List α) (i : ℕ) (x : α) : Except Fault (List α) :=
  if i < s.length then .ok (s.set i x) else .error .indexOutOfRange

def sliceFrom {α : Type} (s : List α) (start : ℤ) : Except Fault (List α) :=
  if 0 ≤ start ∧ start ≤ s.length then .ok (s.drop start.toNat) else .error .indexOutOfRange

def sliceTo {α : Type} (s : List α) (stop : ℤ) : Except Fault (List α) :=
  if 0 ≤ stop ∧ stop ≤ s.length then .ok (s.take stop.toNat) else .error .indexOutOfRange

def lastLogIndex (rf : Raft C) : ℤ := rf.baseIndex + rf.log.length - 1

def logEntry (rf : Raft C) (entryIndex : ℤ) : Except Fault (LogEntry C) :=
  if entryIndex = rf.lastIncludedIndex then
    .ok { index := entryIndex, term := rf.lastIncludedTerm, command := none }
  else load rf.log (entryIndex - rf.baseIndex)

def lastLogTerm (rf : Raft C) : Except Fault ℕ := do
  let e ← logEntry rf (lastLogIndex rf)
  return e.term

def logEntries (rf : Raft C) (start : ℤ) : Except Fault (List (LogEntry C)) :=
  sliceFrom rf.log (start - rf.baseIndex)

def logEntriesTo (rf : Raft C) (stop : ℤ) : Except Fault (List (LogEntry C)) :=
  sliceTo rf.log (stop - rf.baseIndex)

def persist (rf : Raft C) : Raft C :=
  { rf with persister := {
      raftstate := some {
        currentTerm := rf.currentTerm
        votedFor := rf.votedFor
        log := rf.log
        lastIncludedIndex := rf.lastIncludedIndex
        lastIncludedTerm := rf.lastIncludedTerm }
      snapshot := rf.snapshot } }

def readPersist : Option (Persisted C) → Persisted C
  | none => {
      currentTerm := 0
      votedFor := none
      log := []
      lastIncludedIndex := -1
      lastIncludedTerm := 0 }
  | some data => data

def make (peersCount me : ℕ) (persister : Persister C) : Raft C :=
  let data := readPersist persister.raftstate
  { persister := persister
    me := me
    peersCount := peersCount
    currentTerm := data.currentTerm
    votedFor := data.votedFor
    log := data.log
    lastIncludedIndex := data.lastIncludedIndex
    lastIncludedTerm := data.lastIncludedTerm
    baseIndex := data.lastIncludedIndex + 1
    state := .follower
    commitIndex := data.lastIncludedIndex
    lastApplied := data.lastIncludedIndex
    nextIndex := List.replicate peersCount 0
    matchIndex := List.replicate peersCount 0
    snapshot := persister.snapshot
    snapshotInstalled := persister.snapshot.length ≠ 0 }

def handleHigherTerm (rf : Raft C) (newTerm : ℕ) : Raft C :=
  if newTerm > rf.currentTerm then
    persist { rf with currentTerm := newTerm, votedFor := none, state := .follower }
  else rf

def majority (rf : Raft C) : ℕ := rf.peersCount / 2 + 1

/-- Only retain log entries after `index`. -/
def trim (rf : Raft C) (index : ℤ) : Except Fault (Raft C) := do
  let lastIncluded ← logEntry rf index
  let log ←
    if index ≥ lastLogIndex rf then pure []
    else if lastIncluded.index ≠ index then
      throw (.fatal "[SNAPSHOT] lastIncluded.index != index.")
    else sliceFrom rf.log (index - rf.baseIndex + 1)
  return { rf with
    log := log
    lastIncludedIndex := lastIncluded.index
    lastIncludedTerm := lastIncluded.term
    baseIndex := lastIncluded.index + 1 }

def snapshot (rf : Raft C) (index : ℤ) (snapshot : Bytes) : Except Fault (Raft C) :=
  let index := index - 1
  if index ≤ rf.lastIncludedIndex then .ok rf
  else if index > rf.commitIndex then
    .error (.fatal
      s!"App claims to have snapshot with index {index} > {rf.commitIndex} (commitIndex)")
  else do
    let rf ← trim rf index
    return persist { rf with snapshot := snapshot }

def entryHasTerm (rf : Raft C) (idx : ℤ) (term : ℕ) : Except Fault Bool :=
  if idx = rf.lastIncludedIndex then .ok (term = rf.lastIncludedTerm)
  else if idx > lastLogIndex rf then .ok false
  else do
    let e ← logEntry rf idx
    return e.term = term

def firstWithSameTermLoop (rf : Raft C) : ℕ → ℤ → Except Fault ℤ
  | 0, idx => .ok idx
  | fuel+1, idx =>
    if idx ≥ rf.baseIndex + 1 then do
      let e ← logEntry rf idx
      let d ← logEntry rf (idx - 1)
      if e.term = d.term then firstWithSameTermLoop rf fuel (idx - 1) else .ok idx
    else .ok idx

def firstWithSameTerm (rf : Raft C) (idx : ℤ) : Except Fault ℤ :=
  firstWithSameTermLoop rf (idx - rf.baseIndex).toNat idx

def lastEntryLoop (rf : Raft C) (term : ℕ) : ℕ → ℤ → Except Fault ℤ
  | 0, index => .ok index
  | fuel+1, index =>
    if index ≥ rf.baseIndex then do
      let e ← logEntry rf index
      if e.term > term then lastEntryLoop rf term fuel (index - 1) else .ok index
    else .ok index

def lastEntry (rf : Raft C) (index : ℤ) (term : ℕ) : Except Fault (Bool × ℤ) := do
  let index ← lastEntryLoop rf term (index - rf.baseIndex + 1).toNat index
  if index ≥ rf.baseIndex then
    let e ← logEntry rf index
    if e.term = term then return (true, index) else return (false, -1)
  else return (false, -1)

def nReplicated (rf : Raft C) (index : ℤ) : ℕ :=
  rf.matchIndex.foldl (fun count m => if m ≥ index then count + 1 else count) 0

def largestOnMajorityLoop (rf : Raft C) : ℕ → ℤ → ℤ
  | 0, _ => lastLogIndex rf
  | fuel+1, smallestUncommitted =>
    if smallestUncommitted ≤ lastLogIndex rf then
      if nReplicated rf smallestUncommitted < majority rf then smallestUncommitted - 1
      else largestOnMajorityLoop rf fuel (smallestUncommitted + 1)
    else lastLogIndex rf

def largestOnMajority (rf : Raft C) : ℤ :=
  largestOnMajorityLoop rf (lastLogIndex rf - rf.commitIndex).toNat (rf.commitIndex + 1)

end Mitdist.RaftPeer
