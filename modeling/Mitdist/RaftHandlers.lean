import Mitdist.RaftPeer

/-!
# The lock-protected sections of a Raft peer

Each definition is one section between acquiring and releasing the peer's
mutex. The three RPC handlers answer a request; the reply handlers, the
election, replication, commitment and apply sections are what the peer's own
goroutines run. `election` and `becomeLeader` are the sections before and
after the votes are gathered, and `advanceCommitIndex` and `apply` are one
iteration of their loops.
-/

set_option autoImplicit false

namespace Mitdist.RaftHandlers
open Mitdist.RaftPeer

structure RequestVoteArgs where
  term : ℕ
  candidateId : ℕ
  lastLogIndex : ℤ
  lastLogTerm : ℕ
  deriving DecidableEq, Repr

structure RequestVoteReply where
  term : ℕ
  voteGranted : Bool
  deriving DecidableEq, Repr

structure AppendEntriesArgs (C : Type) where
  term : ℕ
  leaderId : ℕ
  prevLogIndex : ℤ
  prevLogTerm : ℕ
  entries : List (LogEntry C)
  leaderCommitIndex : ℤ
  deriving DecidableEq, Repr

structure LogInfo where
  term : ℕ := 0
  index : ℤ := 0
  len : ℤ := 0
  deriving DecidableEq, Repr

structure AppendEntriesReply where
  term : ℕ
  success : Bool := false
  skipForwardTo : ℤ := 0
  logInfo : LogInfo := {}
  deriving DecidableEq, Repr

structure InstallSnapshotArgs where
  term : ℕ
  leaderId : ℕ
  lastIncludedIndex : ℤ
  lastIncludedTerm : ℕ
  snapshot : Bytes
  deriving DecidableEq, Repr

structure InstallSnapshotReply where
  term : ℕ
  deriving DecidableEq, Repr

inductive Request (C : Type) where
  | appendEntries (args : AppendEntriesArgs C)
  | installSnapshot (args : InstallSnapshotArgs)
  deriving DecidableEq, Repr

variable {C : Type}

def rebase (rf : Raft C) (args : InstallSnapshotArgs) (found : Bool) : Except Fault (Raft C) :=
  if found then trim rf args.lastIncludedIndex
  else .ok { rf with
    log := []
    lastIncludedIndex := args.lastIncludedIndex
    lastIncludedTerm := args.lastIncludedTerm
    baseIndex := args.lastIncludedIndex + 1 }

def installSnapshot (rf : Raft C) (args : InstallSnapshotArgs) :
    Except Fault (Raft C × InstallSnapshotReply) :=
  let rf := handleHigherTerm rf args.term
  let reply : InstallSnapshotReply := { term := rf.currentTerm }
  if args.term < rf.currentTerm ∨ args.lastIncludedIndex ≤ rf.lastIncludedIndex then .ok (rf, reply)
  else do
    let rf := { rf with snapshot := args.snapshot }
    let found ← entryHasTerm rf args.lastIncludedIndex args.lastIncludedTerm
    let rf ← rebase rf args found
    return (persist { rf with
      commitIndex := max rf.commitIndex args.lastIncludedIndex
      snapshotInstalled := true }, reply)

def logInfo (rf : Raft C) (expectedIndex : ℤ) : Except Fault LogInfo :=
  let len := lastLogIndex rf + 1
  if expectedIndex ≤ lastLogIndex rf then do
    let e ← logEntry rf expectedIndex
    let first ← firstWithSameTerm rf expectedIndex
    return { term := e.term, index := first, len := len }
  else .ok { term := 0, index := -1, len := len }

def mismatchInfo (rf : Raft C) (args : AppendEntriesArgs C) (logmatch : Bool) :
    Except Fault LogInfo :=
  if logmatch then .ok {} else logInfo rf args.prevLogIndex

def appendLoop (rf : Raft C) : List (LogEntry C) → Except Fault (Raft C)
  | [] => .ok rf
  | e::entries => do
    let present ← entryHasTerm rf e.index e.term
    if present then appendLoop rf entries
    else
      let kept ← logEntriesTo rf e.index
      return { rf with log := kept ++ e::entries }

def appendEntriesLocal (rf : Raft C) (entries : List (LogEntry C)) : Except Fault (Raft C) :=
  if entries.length = 0 then .ok rf
  else do
    let rf ← appendLoop rf entries
    return persist rf

/-- The follower's new commit index is bounded by its own last index, not by
the last index that the request covers. -/
def followCommit (rf : Raft C) (leaderCommitIndex : ℤ) : Raft C :=
  if leaderCommitIndex > rf.commitIndex then
    { rf with commitIndex := min leaderCommitIndex (lastLogIndex rf) }
  else rf

def stopCandidacy (rf : Raft C) (term : ℕ) : Raft C :=
  if rf.state = .candidate ∧ rf.currentTerm = term then { rf with state := .follower } else rf

/-- A request below the follower's snapshot is answered with success before
its entries are looked at, and before the request's term is compared. -/
def appendEntries (rf : Raft C) (args : AppendEntriesArgs C) :
    Except Fault (Raft C × AppendEntriesReply) :=
  let rf := stopCandidacy (handleHigherTerm rf args.term) args.term
  if args.prevLogIndex < rf.lastIncludedIndex then
    .ok (rf, { term := rf.currentTerm, success := true, skipForwardTo := rf.baseIndex })
  else do
    let logmatch ← entryHasTerm rf args.prevLogIndex args.prevLogTerm
    let info ← mismatchInfo rf args logmatch
    if logmatch ∧ ¬ args.term < rf.currentTerm then
      let rf' ← appendEntriesLocal rf args.entries
      return (followCommit rf' args.leaderCommitIndex,
        { term := rf.currentTerm, success := true, logInfo := info })
    else return (rf, { term := rf.currentTerm, success := false, logInfo := info })

def updatedLog (rf : Raft C) (lastTerm : ℕ) (lastIndex : ℤ) : Except Fault Bool := do
  let term ← lastLogTerm rf
  return lastTerm > term ∨ (lastTerm = term ∧ lastIndex ≥ lastLogIndex rf)

def vote (rf : Raft C) (args : RequestVoteArgs) : Except Fault (Raft C × Bool) :=
  if rf.votedFor = none ∨ rf.votedFor = some args.candidateId then do
    let v ← updatedLog rf args.lastLogTerm args.lastLogIndex
    if v then return (persist { rf with votedFor := some args.candidateId }, true)
    else return (rf, false)
  else .ok (rf, false)

def requestVote (rf : Raft C) (args : RequestVoteArgs) : Except Fault (Raft C × RequestVoteReply) :=
  let rf := handleHigherTerm rf args.term
  if args.term ≥ rf.currentTerm then do
    let (rf', granted) ← vote rf args
    return (rf', { term := rf.currentTerm, voteGranted := granted })
  else .ok (rf, { term := rf.currentTerm, voteGranted := false })

def missingEntriesForServer (rf : Raft C) (server : ℕ) :
    Except Fault (ℤ × ℕ × List (LogEntry C)) := do
  let nextIdx ← load rf.nextIndex server
  let prev ← logEntry rf (nextIdx - 1)
  let missing ← if lastLogIndex rf ≥ nextIdx then logEntries rf nextIdx else pure []
  return (nextIdx - 1, prev.term, missing)

def appendMissingEntries (rf : Raft C) (term server : ℕ) : Except Fault (Option (Request C)) :=
  if rf.state ≠ .leader ∨ rf.currentTerm ≠ term then .ok none
  else do
    let nextIdx ← load rf.nextIndex server
    if nextIdx - 1 < rf.lastIncludedIndex then
      return some (.installSnapshot {
        term := rf.currentTerm
        leaderId := rf.me
        lastIncludedIndex := rf.lastIncludedIndex
        lastIncludedTerm := rf.lastIncludedTerm
        snapshot := rf.snapshot })
    else
      let (prevIdx, prevLogTerm, missing) ← missingEntriesForServer rf server
      return some (.appendEntries {
        term := term
        leaderId := rf.me
        prevLogIndex := prevIdx
        prevLogTerm := prevLogTerm
        entries := missing
        leaderCommitIndex := rf.commitIndex })

def handleAppendReply (rf : Raft C) (server : ℕ) (args : AppendEntriesArgs C)
    (reply : AppendEntriesReply) : Except Fault (Raft C) :=
  let rf := handleHigherTerm rf reply.term
  if rf.state ≠ .leader ∨ rf.currentTerm ≠ args.term then .ok rf
  else if reply.success then do
    let next := args.prevLogIndex + 1 + args.entries.length
    let nextIndex ← store rf.nextIndex server next
    let matchIndex ← store rf.matchIndex server (next - 1)
    return { rf with nextIndex := nextIndex, matchIndex := matchIndex }
  else if args.prevLogIndex ≥ reply.logInfo.len then do
    let nextIndex ← store rf.nextIndex server reply.logInfo.len
    return { rf with nextIndex := nextIndex }
  else do
    let (hasTerm, idx) ← lastEntry rf args.prevLogIndex reply.logInfo.term
    let nextIndex ← store rf.nextIndex server (if hasTerm then idx else reply.logInfo.index)
    return { rf with nextIndex := nextIndex }

def appendEntryLocal (rf : Raft C) (command : Option C) : Except Fault (Raft C) := do
  let nextIndex := lastLogIndex rf + 1
  let matchIndex ← store rf.matchIndex rf.me nextIndex
  return persist { rf with
    log := rf.log ++ [{ index := nextIndex, term := rf.currentTerm, command := command }]
    matchIndex := matchIndex }

def start (rf : Raft C) (command : Option C) : Except Fault (Raft C × ℤ × ℕ × Bool) :=
  if rf.state = .leader then do
    let rf ← appendEntryLocal rf command
    return (rf, lastLogIndex rf + 1, rf.currentTerm, true)
  else .ok (rf, 0, rf.currentTerm, false)

/-- One iteration of the polling loop. A peer that is not the leader also
enters the body unless its whole log is committed. -/
def advanceCommitIndex (rf : Raft C) : Except Fault (Raft C) :=
  if rf.state = .leader ∨ rf.commitIndex ≠ lastLogIndex rf then
    let l := largestOnMajority rf
    if l ≠ rf.lastIncludedIndex ∧ l > rf.commitIndex then do
      let e ← logEntry rf l
      return if e.term = rf.currentTerm then { rf with commitIndex := l } else rf
    else .ok rf
  else .ok rf

def apply (rf : Raft C) : Except Fault (Raft C × ApplyMsg C) :=
  if rf.snapshotInstalled then
    .ok ({ rf with lastApplied := rf.lastIncludedIndex, snapshotInstalled := false }, {
      snapshotValid := true
      snapshot := rf.snapshot
      snapshotIndex := rf.lastIncludedIndex + 1
      snapshotTerm := rf.lastIncludedTerm })
  else do
    let rf := { rf with lastApplied := rf.lastApplied + 1 }
    let e ← logEntry rf rf.lastApplied
    return (rf, { commandValid := true, command := e.command, commandIndex := rf.lastApplied + 1 })

def election (rf : Raft C) : Except Fault (Raft C × RequestVoteArgs) := do
  let rf := persist { rf with currentTerm := rf.currentTerm + 1, votedFor := some rf.me }
  let term ← lastLogTerm rf
  let args : RequestVoteArgs := {
    term := rf.currentTerm
    candidateId := rf.me
    lastLogIndex := lastLogIndex rf
    lastLogTerm := term }
  return ({ rf with state := .candidate }, args)

def becomeLeader (rf : Raft C) : Except Fault (Raft C) := do
  let matchIndex ← store (rf.matchIndex.map (fun _ => -1)) rf.me (lastLogIndex rf)
  return { rf with
    state := .leader
    nextIndex := rf.nextIndex.map (fun _ => lastLogIndex rf + 1)
    matchIndex := matchIndex }

end Mitdist.RaftHandlers
