import Mitdist.LinkedCells
import Mitdist.CheckerBitset
import Mathlib.Data.Int.Notation
import Mathlib.Logic.Function.Basic

/-!
# The linearizability checker

The entries of a history, the list of nodes that they are linked in, and the
search of `checkSingle`, one iteration of its loop at a time. Nodes are at
addresses of a heap. A dereferenced nil pointer, an index out of range and a
failed type assertion end the process and have no result. The sequences that
`longest` points to are kept in the order of their allocation; each is made at
once, which the source puts off until it is needed. What an iteration loads
from `kill` is an input.
-/

set_option autoImplicit false

namespace Mitdist.Checker
open Mitdist.LinkedCells Mitdist.CheckerBitset

structure Operation (I O : Type) where
  clientId : ℤ
  input : I
  call : ℤ
  output : O
  ret : ℤ
  deriving DecidableEq, Repr

/-- What an `interface{}` holds here: an input, an output or nil. -/
inductive Value (I O : Type) where
  | nil
  | input (i : I)
  | output (o : O)
  deriving DecidableEq, Repr

/-- A function that is not given is nil. -/
structure Model (S I O : Type) where
  partition : Option (List (Operation I O) → List (List (Operation I O))) := none
  init : S
  step : S → I → O → Bool × S
  equal : Option (S → S → Bool) := none

structure Filled (S I O : Type) where
  partition : List (Operation I O) → List (List (Operation I O))
  init : S
  step : S → I → O → Bool × S
  equal : S → S → Bool

variable {S I O : Type}

def noPartition (history : List (Operation I O)) : List (List (Operation I O)) := [history]

def shallowEqual [DecidableEq S] (state1 state2 : S) : Bool := state1 = state2

def fillDefault [DecidableEq S] (model : Model S I O) : Filled S I O where
  partition := model.partition.getD noPartition
  init := model.init
  step := model.step
  equal := model.equal.getD shallowEqual

inductive EntryKind where
  | callEntry
  | returnEntry
  deriving DecidableEq, Repr

structure Entry (I O : Type) where
  kind : EntryKind
  value : Value I O
  id : ℕ
  time : ℤ
  clientId : ℤ
  deriving DecidableEq, Repr

def less (a b : Entry I O) : Bool :=
  if a.time ≠ b.time then a.time < b.time
  else a.kind = .callEntry ∧ b.kind = .returnEntry

def unsortedEntries (id : ℕ) : List (Operation I O) → List (Entry I O)
  | [] => []
  | elem::history =>
    { kind := .callEntry, value := .input elem.input, id := id, time := elem.call,
      clientId := elem.clientId } ::
    { kind := .returnEntry, value := .output elem.output, id := id, time := elem.ret,
      clientId := elem.clientId } :: unsortedEntries (id+1) history

/-- What `sort.Sort` leaves: the order of entries that compare equal is open. -/
structure MakesEntries (history : List (Operation I O)) (entries : List (Entry I O)) : Prop where
  perm : entries.Perm (unsortedEntries 0 history)
  sorted : entries.Pairwise (fun a b => ¬ less b a)

def makeEntries (history : List (Operation I O)) : List (Entry I O) :=
  (unsortedEntries 0 history).mergeSort (fun a b => !less b a)

/-- The fields of a node but for its links. `mate` is the field `match`. -/
structure Content (I O : Type) where
  value : Value I O
  mate : Option ℕ
  id : ℤ
  deriving DecidableEq, Repr

abbrev Nodes (I O : Type) := Heap (Content I O)

def insertBefore (h : Nodes I O) (n : ℕ) (mark : Option ℕ) : Option (Nodes I O) :=
  match mark with
  | none => return h
  | some mark => do
    let node ← h[mark]?
    let beforeMark := node.prev
    let h ← setPrev h mark (some n)
    let h ← setNext h n (some mark)
    match beforeMark with
    | none => return h
    | some beforeMark => do
      let h ← setPrev h n (some beforeMark)
      setNext h beforeMark (some n)

/-- A list that is longer than the heap does not end. -/
def lengthFrom (h : Nodes I O) : ℕ → Option ℕ → Option ℕ
  | _, none => return 0
  | 0, some _ => none
  | fuel+1, some n => do
    let node ← h[n]?
    let l ← lengthFrom h fuel node.next
    return l+1

def length (h : Nodes I O) (n : Option ℕ) : Option ℕ := lengthFrom h h.length n

structure LinkedEntries (I O : Type) where
  heap : Nodes I O
  root : Option ℕ
  mates : ℕ → Option ℕ

def linkEntry (l : LinkedEntries I O) (elem : Entry I O) : Option (LinkedEntries I O) := do
  let entry := l.heap.length
  match elem.kind with
  | .returnEntry => do
    let content := { value := elem.value, mate := none, id := elem.id }
    let h ← insertBefore (l.heap ++ [{ content := content }]) entry l.root
    return ⟨h,some entry,Function.update l.mates elem.id (some entry)⟩
  | .callEntry => do
    let content := { value := elem.value, mate := l.mates elem.id, id := elem.id }
    let h ← insertBefore (l.heap ++ [{ content := content }]) entry l.root
    return ⟨h,some entry,l.mates⟩

/-- The loop of the source runs from the last entry to the first. -/
def makeLinkedEntries : List (Entry I O) → Option (LinkedEntries I O)
  | [] => return ⟨[],none,fun _ => none⟩
  | elem::entries => do
    let l ← makeLinkedEntries entries
    linkEntry l elem

structure CacheEntry (S : Type) where
  linearized : Bitset
  state : S

abbrev Cache (S : Type) := BitVec 64 → List (CacheEntry S)

def cacheContains (model : Filled S I O) (cache : Cache S) (entry : CacheEntry S) : Bool :=
  (cache (CheckerBitset.hash entry.linearized)).any (fun elem =>
    equals entry.linearized elem.linearized && model.equal entry.state elem.state)

structure CallsEntry (S : Type) where
  entry : ℕ
  state : S

def lift (h : Nodes I O) (entry : ℕ) : Option (Nodes I O) := do
  let e ← h[entry]?
  let prev ← e.prev
  let h ← setNext h prev e.next
  let e ← h[entry]?
  let next ← e.next
  let h ← setPrev h next e.prev
  let e ← h[entry]?
  let mate ← e.content.mate
  let m ← h[mate]?
  let prev ← m.prev
  let h ← setNext h prev m.next
  let m ← h[mate]?
  match m.next with
  | none => return h
  | some next => setPrev h next m.prev

def unlift (h : Nodes I O) (entry : ℕ) : Option (Nodes I O) := do
  let e ← h[entry]?
  let mate ← e.content.mate
  let m ← h[mate]?
  let prev ← m.prev
  let h ← setNext h prev (some mate)
  let m ← h[mate]?
  let h ← match m.next with
    | none => pure h
    | some next => setPrev h next (some mate)
  let e ← h[entry]?
  let prev ← e.prev
  let h ← setNext h prev (some entry)
  let e ← h[entry]?
  let next ← e.next
  setPrev h next (some entry)

structure Partials where
  longest : List (Option ℕ)
  seqs : List (List ℤ)
  deriving DecidableEq, Repr

structure Search (S I O : Type) where
  heap : Nodes I O
  headEntry : ℕ
  entry : Option ℕ
  linearized : Bitset
  cache : Cache S
  calls : List (CallsEntry S)
  state : S
  partials : Partials

/-- `checkSingle` up to its loop. -/
def start (model : Filled S I O) (history : List (Entry I O)) : Option (Search S I O) := do
  let l ← makeLinkedEntries history
  let len ← length l.heap l.root
  let n := len/2
  let headEntry := l.heap.length
  let h ← insertBefore (l.heap ++ [{ content := { value := .nil, mate := none, id := -1 } }])
    headEntry l.root
  return {
    heap := h
    headEntry := headEntry
    entry := l.root
    linearized := newBitset n
    cache := fun _ => []
    calls := []
    state := model.init
    partials := ⟨List.replicate n none,[]⟩ }

def callIds (h : Nodes I O) (calls : List (CallsEntry S)) : Option (List ℤ) :=
  calls.mapM (fun v => (h[v.entry]?).map (fun node => node.content.id))

def loadLongest (longest : List (Option ℕ)) (id : ℤ) : Option (Option ℕ) :=
  if id < 0 then none else longest[id.toNat]?

/-- The body of the loop over `calls` that updates `longest`. -/
def updateLongest (seqs : List (List ℤ)) (seq : ℕ) (callsLen : ℕ) (longest : List (Option ℕ))
    (id : ℤ) : Option (List (Option ℕ)) := do
  let l ← loadLongest longest id
  match l with
  | none => return longest.set id.toNat (some seq)
  | some p => do
    let s ← seqs[p]?
    if callsLen > s.length then return longest.set id.toNat (some seq) else return longest

def recordPartial (h : Nodes I O) (calls : List (CallsEntry S)) (p : Partials) :
    Option Partials := do
  let ids ← callIds h calls
  let seqs := p.seqs ++ [ids]
  let longest ← ids.foldlM (updateLongest seqs p.seqs.length calls.length) p.longest
  return ⟨longest,seqs⟩

inductive Iteration (S I O : Type) where
  | running (s : Search S I O)
  | returned (ok : Bool) (partials : Partials)

def asInput : Value I O → Option I
  | .input i => some i
  | _ => none

def asOutput : Value I O → Option O
  | .output o => some o
  | _ => none

/-- The branch of the loop for a call. -/
def tryCall (model : Filled S I O) (s : Search S I O) (entry : ℕ) (e : Cell (Content I O))
    (matching : ℕ) : Option (Search S I O) := do
  let m ← s.heap[matching]?
  let input ← asInput e.content.value
  let output ← asOutput m.content.value
  let (ok, newState) := model.step s.state input output
  if ok then
    let newLinearized ← set s.linearized e.content.id.toNat
    let newCacheEntry := ⟨newLinearized,newState⟩
    if !cacheContains model s.cache newCacheEntry then
      let hash := CheckerBitset.hash newLinearized
      let linearized ← set s.linearized e.content.id.toNat
      let h ← lift s.heap entry
      let head ← h[s.headEntry]?
      return { s with
        cache := Function.update s.cache hash (s.cache hash ++ [newCacheEntry])
        calls := s.calls ++ [⟨entry,s.state⟩]
        state := newState
        linearized := linearized
        heap := h
        entry := head.next }
    else return { s with entry := e.next }
  else return { s with entry := e.next }

/-- The branch of the loop for a return. -/
def backtrack (computePartial : Bool) (s : Search S I O) : Option (Iteration S I O) := do
  match s.calls.getLast? with
  | none => return .returned false s.partials
  | some callsTop => do
    let partials ← if computePartial then recordPartial s.heap s.calls s.partials else s.partials
    let entry := callsTop.entry
    let e ← s.heap[entry]?
    let linearized ← clear s.linearized e.content.id.toNat
    let h ← unlift s.heap entry
    let e ← h[entry]?
    return .running { s with
      partials := partials
      entry := e.next
      state := callsTop.state
      linearized := linearized
      calls := s.calls.dropLast
      heap := h }

/-- One test of the loop condition, and the iteration that follows it. -/
def iterate (model : Filled S I O) (computePartial kill : Bool) (s : Search S I O) :
    Option (Iteration S I O) := do
  let head ← s.heap[s.headEntry]?
  match head.next with
  | none => do
    let seq ← callIds s.heap s.calls
    let p := s.partials
    return .returned true ⟨List.replicate p.longest.length (some p.seqs.length),p.seqs ++ [seq]⟩
  | some _ =>
    if kill then return .returned false s.partials
    else do
      let entry ← s.entry
      let e ← s.heap[entry]?
      match e.content.mate with
      | some matching => do
        let s ← tryCall model s entry e matching
        return .running s
      | none => backtrack computePartial s

/-- `kill k` is what iteration `k` loads; the inner result is missing while the
loop has not ended. -/
def runFrom (model : Filled S I O) (computePartial : Bool) (kill : ℕ → Bool) :
    ℕ → ℕ → Search S I O → Option (Option (Bool × Partials))
  | 0, _, _ => return none
  | fuel+1, k, s => do
    match ← iterate model computePartial (kill k) s with
    | .running s => runFrom model computePartial kill fuel (k+1) s
    | .returned ok partials => return some (ok, partials)

def checkSingle (model : Filled S I O) (history : List (Entry I O)) (computePartial : Bool)
    (kill : ℕ → Bool) (fuel : ℕ) : Option (Option (Bool × Partials)) := do
  let s ← start model history
  runFrom model computePartial kill fuel 0 s

end Mitdist.Checker
