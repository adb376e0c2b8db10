import Mitdist.CheckerHistories
import Mitdist.TransitionSystem

/-!
# Checking the partitions of a history in parallel

`checkParallel` starts a goroutine for each partition, which runs `checkSingle`
and sends its result on a channel. The main routine receives the results until
all have come, one is false or the time is up, and sets `kill` when it stops
early. An event is one iteration of a search, the sending of a result, or one
communication of the main routine, in any order. A fault in a goroutine ends
the process.
-/

set_option autoImplicit false

namespace Mitdist.ParallelChecker
open Mitdist.Checker Mitdist.CheckerHistories

inductive CheckResult where
  | unknown
  | ok
  | illegal
  deriving DecidableEq, Repr

/-- A goroutine before it calls `checkSingle`, in the loop of it, with what it
returned, and after it has sent the result. -/
inductive Routine (S I O : Type) where
  | started (subhistory : List (Entry I O))
  | searching (s : Search S I O)
  | returned (ok : Bool) (partials : Partials)
  | ended

/-- The main routine is in the loop with the `select`, waits for all goroutines
to finish, or has returned. -/
inductive Phase where
  | selecting
  | waiting
  | finished
  deriving DecidableEq, Repr

structure Parallel (S I O : Type) where
  routines : List (Routine S I O)
  results : List Bool
  longest : List (Option Partials)
  kill : Bool
  count : ℕ
  ok : Bool
  timedOut : Bool
  phase : Phase
  panicked : Bool

inductive Event where
  | routine (i : ℕ)
  | receive
  | timeout
  | wait
  deriving DecidableEq, Repr

variable {S I O : Type}

def checkParallel (history : List (List (Entry I O))) : Parallel S I O where
  routines := history.map .started
  results := []
  longest := List.replicate history.length none
  kill := false
  count := 0
  ok := true
  timedOut := false
  phase := .selecting
  panicked := false

/-- What a goroutine does next, given what it loads from `kill`. -/
def advance (model : Filled S I O) (computeInfo kill : Bool) :
    Routine S I O → Option (Routine S I O)
  | .started subhistory => do
    let s ← start model subhistory
    return .searching s
  | .searching s => do
    match ← iterate model computeInfo kill s with
    | .running s => return .searching s
    | .returned ok partials => return .returned ok partials
  | r => return r

def leaveLoop (computeInfo : Bool) : Phase := if computeInfo then .waiting else .finished

def step (model : Filled S I O) (computeInfo : Bool) (timeout : ℤ) (c : Parallel S I O) :
    Event → Option (Parallel S I O)
  | .routine i =>
    if c.panicked then none
    else match c.routines[i]? with
      | none => none
      | some .ended => none
      | some (.returned ok partials) =>
        if c.results.length < c.routines.length then
          some { c with
            longest := c.longest.set i (some partials)
            results := c.results ++ [ok]
            routines := c.routines.set i .ended }
        else none
      | some r =>
        match advance model computeInfo c.kill r with
        | none => some { c with panicked := true }
        | some r => some { c with routines := c.routines.set i r }
  | .receive =>
    if c.panicked ∨ c.phase ≠ .selecting then none
    else match c.results with
      | [] => none
      | result::results =>
        let count := c.count+1
        let ok := c.ok && result
        if !ok && !computeInfo then
          some { c with
            results := results, count := count, ok := ok, kill := true
            phase := leaveLoop computeInfo }
        else if count ≥ c.routines.length then
          some { c with
            results := results, count := count, ok := ok
            phase := leaveLoop computeInfo }
        else some { c with results := results, count := count, ok := ok }
  | .timeout =>
    if c.panicked ∨ c.phase ≠ .selecting ∨ timeout ≤ 0 then none
    else some { c with timedOut := true, kill := true, phase := leaveLoop computeInfo }
  | .wait =>
    if c.panicked ∨ c.phase ≠ .waiting then none
    else if c.count < c.routines.length then
      match c.results with
      | [] => none
      | _::results => some { c with results := results, count := c.count+1 }
    else some { c with phase := .finished }

def result (c : Parallel S I O) : CheckResult :=
  if !c.ok then .illegal else if c.timedOut then .unknown else .ok

/-- The set of sequences that `longest` points to. -/
def partialsOf (l : Option Partials) : List (List ℤ) :=
  match l with
  | none => []
  | some p => (p.longest.filterMap id).dedup.filterMap (fun q => p.seqs[q]?)

def partialLinearizations (c : Parallel S I O) : List (List (List ℤ)) := c.longest.map partialsOf

/-- The initial states of `checkOperations`, one for each way to sort. -/
def StartsOperations (model : Filled S I O) (history : List (Operation I O))
    (c : Parallel S I O) : Prop :=
  ∃ l, List.Forall₂ MakesEntries (model.partition history) l ∧ c = checkParallel l

def checkOperations (model : Filled S I O) (history : List (Operation I O)) : Parallel S I O :=
  checkParallel ((model.partition history).map makeEntries)

end Mitdist.ParallelChecker
