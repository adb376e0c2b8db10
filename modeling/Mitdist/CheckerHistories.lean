import Mitdist.CheckerVerdict

/-!
# Histories of operations

An operation takes effect at some moment between its call and its return. A
history is linearizable if its operations can be put in an order in which the
model allows each, and in which an operation that returned before another was
called comes before it. However `sort.Sort` orders the entries that compare
equal, they have this order of the operations.
-/

set_option autoImplicit false

namespace Mitdist.CheckerHistories
open Mitdist.Checker Mitdist.CheckerLists Mitdist.IntervalHistory Mitdist.CheckerSearch
open Mitdist.CheckerVerdict
open scoped List

variable {S I O : Type}

def Precedes (history : List (Operation I O)) (i j : ℕ) : Prop :=
  ∃ a b, history[i]? = some a ∧ history[j]? = some b ∧ a.ret < b.call

def applyOp (step : S → I → O → Bool × S) (history : List (Operation I O)) (s : S) (i : ℕ) :
    Option S := do
  let op ← history[i]?
  let (ok, s') := step s op.input op.output
  if ok then some s' else none

/-- The operations of the sequence can be the first ones that take effect. -/
structure PartialLinearization (step : S → I → O → Bool × S) (init : S)
    (history : List (Operation I O)) (os : List ℕ) : Prop where
  nodup : os.Nodup
  within : ∀ i ∈ os, i < history.length
  order : ∀ j ∈ os, ∀ i, Precedes history i j → [i, j] <+ os
  legal : (os.foldlM (applyOp step history) init).isSome

def LinearizableBy (step : S → I → O → Bool × S) (init : S) (history : List (Operation I O)) :
    Prop :=
  ∃ os, PartialLinearization step init history os ∧ ∀ i < history.length, i ∈ os

def callOf (id : ℕ) (op : Operation I O) : Entry I O where
  kind := .callEntry
  value := .input op.input
  id := id
  time := op.call
  clientId := op.clientId

def returnOf (id : ℕ) (op : Operation I O) : Entry I O where
  kind := .returnEntry
  value := .output op.output
  id := id
  time := op.ret
  clientId := op.clientId

theorem less_iff (a b : Entry I O) : less a b = true ↔
    a.time < b.time ∨ a.time = b.time ∧ a.kind = .callEntry ∧ b.kind = .returnEntry := by
  unfold less
  split_ifs with h
  · rw [decide_eq_true_eq]
    omega
  · have heq : a.time = b.time := by simpa using h
    rw [decide_eq_true_eq]
    simp [heq]

theorem mem_unsorted (k : ℕ) (history : List (Operation I O)) (e : Entry I O) :
    e ∈ unsortedEntries k history ↔
      ∃ i op, history[i]? = some op ∧ (e = callOf (k+i) op ∨ e = returnOf (k+i) op) := by
  induction history generalizing k with
  | nil => simp [unsortedEntries]
  | cons op history ih =>
    have hcons : unsortedEntries k (op::history) =
      callOf k op::returnOf k op::unsortedEntries (k+1) history := rfl
    rw [hcons, List.mem_cons, List.mem_cons, ih]
    constructor
    · rintro (rfl | rfl | ⟨i,op',hop,he⟩)
      · exact ⟨0,op,rfl,.inl rfl⟩
      · exact ⟨0,op,rfl,.inr rfl⟩
      · exact ⟨i+1,op',hop,by rwa [Nat.add_right_comm, Nat.add_assoc] at he⟩
    · rintro ⟨i,op',hop,he⟩
      cases i with
      | zero =>
        obtain rfl : op = op' := by simpa using hop
        rcases he with rfl | rfl
        · exact .inl rfl
        · exact .inr (.inl rfl)
      | succ i => exact .inr (.inr ⟨i,op',hop,by rwa [Nat.add_right_comm, Nat.add_assoc]⟩)

theorem unsorted_length (k : ℕ) (history : List (Operation I O)) :
    (unsortedEntries k history).length = 2*history.length := by
  induction history generalizing k with
  | nil => rfl
  | cons op history ih =>
    simp only [unsortedEntries, List.length_cons, ih]
    omega

theorem unsorted_nodup (k : ℕ) (history : List (Operation I O)) :
    ((unsortedEntries k history).map mark).Nodup := by
  induction history generalizing k with
  | nil => simp [unsortedEntries]
  | cons op history ih =>
    have hlater : ∀ m ∈ (unsortedEntries (k+1) history).map mark, k < m.op := by
      intro m hm
      obtain ⟨e,he,rfl⟩ := List.mem_map.mp hm
      rw [mark_op]
      obtain ⟨i,op',-,rfl | rfl⟩ := (mem_unsorted (k+1) history e).mp he
      · simp only [callOf]
        omega
      · simp only [returnOf]
        omega
    have hcons : (unsortedEntries k (op::history)).map mark =
      .call k::.ret k::(unsortedEntries (k+1) history).map mark := rfl
    rw [hcons, List.nodup_cons, List.nodup_cons]
    refine ⟨fun hin => ?_,fun hin => absurd (hlater _ hin) (by simp [Mark.op]),ih (k+1)⟩
    rcases List.mem_cons.mp hin with h | h
    · simp at h
    · exact absurd (hlater _ h) (by simp [Mark.op])

section

variable {history : List (Operation I O)} {entries : List (Entry I O)}

theorem mem_entries (he : MakesEntries history entries) (e : Entry I O) :
    e ∈ entries ↔ ∃ i op, history[i]? = some op ∧ (e = callOf i op ∨ e = returnOf i op) := by
  rw [he.perm.mem_iff, mem_unsorted]
  simp

theorem entries_nodup (he : MakesEntries history entries) : (entries.map mark).Nodup :=
  (he.perm.map mark).nodup_iff.mpr (unsorted_nodup 0 history)

theorem entries_half (he : MakesEntries history entries) : entries.length/2 = history.length := by
  rw [he.perm.length_eq, unsorted_length]
  omega

theorem call_mem (he : MakesEntries history entries) (i : ℕ) :
    .call i ∈ entries.map mark ↔ i < history.length := by
  rw [List.mem_map]
  constructor
  · rintro ⟨e,hin,hm⟩
    obtain ⟨j,op,hop,rfl | rfl⟩ := (mem_entries he e).mp hin
    · obtain rfl : j = i := Mark.call.inj hm
      exact (List.getElem?_eq_some_iff.mp hop).1
    · exact absurd hm (by simp [mark, returnOf])
  · intro hi
    exact ⟨callOf i history[i],
      (mem_entries he _).mpr ⟨i,_,List.getElem?_eq_getElem hi,.inl rfl⟩,rfl⟩

/-- Entries of which the second has to come first are not in this order. -/
theorem entries_order (he : MakesEntries history entries) {e f : Entry I O} (hin : e ∈ entries)
    (hfin : f ∈ entries) (hless : less e f = true) : [mark e, mark f] <+ entries.map mark := by
  have hne : e ≠ f := by
    rintro rfl
    rcases (less_iff e e).mp hless with h | ⟨-,h,h'⟩
    · omega
    · simp [h] at h'
  rcases pair_sublist hin hfin hne with h | h
  · exact h.map mark
  · exact absurd hless (List.pairwise_iff_forall_sublist.mp he.sorted h)

theorem entries_history (he : MakesEntries history entries)
    (hc : ∀ op ∈ history, op.call ≤ op.ret) : History entries where
  wellFormed := {
    nodup := entries_nodup he
    returns := by
      intro i hi
      have hlt := (call_mem he i).mp hi
      have hop := List.getElem?_eq_getElem hlt
      refine entries_order he (e := callOf i history[i]) (f := returnOf i history[i])
        ((mem_entries he _).mpr ⟨i,_,hop,.inl rfl⟩) ((mem_entries he _).mpr ⟨i,_,hop,.inr rfl⟩) ?_
      have hle : history[i].call ≤ history[i].ret := hc _ (List.getElem_mem hlt)
      rw [less_iff]
      rcases hle.lt_or_eq with h | h
      · exact .inl h
      · exact .inr ⟨h,rfl,rfl⟩
    called := by
      intro i hi
      obtain ⟨e,hin,hm⟩ := List.mem_map.mp hi
      obtain ⟨j,op,hop,rfl | rfl⟩ := (mem_entries he e).mp hin
      · exact absurd hm (by simp [mark, callOf])
      · obtain rfl : j = i := Mark.ret.inj hm
        exact (call_mem he j).mpr (List.getElem?_eq_some_iff.mp hop).1 }
  ids e hin := by
    rw [entries_half he]
    obtain ⟨i,op,hop,rfl | rfl⟩ := (mem_entries he e).mp hin <;>
      exact (List.getElem?_eq_some_iff.mp hop).1
  called i hi := (call_mem he i).mpr (entries_half he ▸ hi)
  inputs e hin hk := by
    obtain ⟨i,op,-,rfl | rfl⟩ := (mem_entries he e).mp hin
    · rfl
    · simp [returnOf] at hk
  outputs e hin hk := by
    obtain ⟨i,op,-,rfl | rfl⟩ := (mem_entries he e).mp hin
    · simp [callOf] at hk
    · rfl

theorem before_iff (he : MakesEntries history entries) (i j : ℕ) :
    Before (entries.map mark) i j ↔ Precedes history i j := by
  constructor
  · intro h
    obtain ⟨l,hl,hmap⟩ := List.sublist_map_iff.mp h
    obtain ⟨e,f,rfl⟩ : ∃ e f, l = [e, f] := by
      have := congrArg List.length hmap
      match l, this with
      | [e, f], _ => exact ⟨e,f,rfl⟩
    obtain ⟨he',hf'⟩ : mark e = .ret i ∧ mark f = .call j := by simpa using hmap.symm
    have hnot := List.pairwise_iff_forall_sublist.mp he.sorted hl
    obtain ⟨i',a,ha,rfl | rfl⟩ := (mem_entries he e).mp (hl.subset (by simp))
    · simp [mark, callOf] at he'
    obtain ⟨j',b,hb,rfl | rfl⟩ := (mem_entries he f).mp (hl.subset (by simp))
    · obtain rfl : i' = i := Mark.ret.inj he'
      obtain rfl : j' = j := Mark.call.inj hf'
      refine ⟨a,b,ha,hb,?_⟩
      rw [less_iff, not_or] at hnot
      have hle : ¬ b.call < a.ret := hnot.1
      have hne : b.call ≠ a.ret := fun h => hnot.2 ⟨h,rfl,rfl⟩
      omega
    · simp [mark, returnOf] at hf'
  · rintro ⟨a,b,ha,hb,hlt⟩
    refine entries_order he (e := returnOf i a) (f := callOf j b)
      ((mem_entries he _).mpr ⟨i,a,ha,.inr rfl⟩) ((mem_entries he _).mpr ⟨j,b,hb,.inl rfl⟩) ?_
    exact (less_iff _ _).mpr (.inl hlt)

theorem legal_eq (he : MakesEntries history entries) (model : Filled S I O) (s : S) (i : ℕ) :
    legal model entries s i = applyOp model.step history s i := by
  by_cases hi : i < history.length
  · have hop := List.getElem?_eq_getElem hi
    have hin : inputOf entries i = some history[i].input :=
      input_of (entries_nodup he) (e := callOf i history[i])
        ((mem_entries he _).mpr ⟨i,_,hop,.inl rfl⟩) rfl
    have hout : outputOf entries i = some history[i].output :=
      output_of (entries_nodup he) (e := returnOf i history[i])
        ((mem_entries he _).mpr ⟨i,_,hop,.inr rfl⟩) rfl
    simp [legal, applyOp, hin, hout, hop]
  · have hnone : inputOf entries i = none := by
      rw [inputOf, Option.bind_eq_none_iff]
      intro e hfind
      have hprop := List.find?_some hfind
      simp only [decide_eq_true_eq] at hprop
      have hcall := List.mem_map_of_mem (f := mark) (List.mem_of_find?_eq_some hfind)
      rw [mark_call hprop.1, hprop.2, call_mem he] at hcall
      exact absurd hcall hi
    simp [legal, applyOp, hnone, List.getElem?_eq_none (Nat.le_of_not_lt hi)]

/-- The entries have the partial linearizations of the operations. -/
theorem partial_iff (he : MakesEntries history entries) (model : Filled S I O) (os : List ℕ) :
    Partial (entries.map mark) (legal model entries) model.init os ↔
      PartialLinearization model.step model.init history os := by
  have hlegal : legal model entries = applyOp model.step history := by
    funext s i
    exact legal_eq he model s i
  constructor
  · rintro ⟨⟨hn,-,hcalled,horder⟩,hl⟩
    refine ⟨hn,fun i hi => (call_mem he i).mp (hcalled i hi),fun j hj i hij => ?_,hlegal ▸ hl⟩
    exact (horder j hj i ((before_iff he i j).mpr hij)).resolve_left (by simp)
  · rintro ⟨hn,hwithin,horder,hl⟩
    refine ⟨⟨hn,by simp,fun i hi => (call_mem he i).mpr (hwithin i hi),fun j hj i hij => ?_⟩,
      hlegal ▸ hl⟩
    exact .inr (horder j hj i ((before_iff he i j).mp hij))

theorem linearizable_iff (he : MakesEntries history entries) (model : Filled S I O) :
    Linearizable model entries ↔ LinearizableBy model.step model.init history := by
  simp only [Linearizable, LinearizableBy, partial_iff he, call_mem he]

end

theorem make_entries_makes (history : List (Operation I O)) :
    MakesEntries history (makeEntries history) where
  perm := List.mergeSort_perm _ _
  sorted := by
    have htrans : ∀ a b c : Entry I O, (!less b a) = true → (!less c b) = true →
        (!less c a) = true := by
      simp only [Bool.not_eq_true', ← Bool.not_eq_true, less_iff]
      intro a b c
      cases a.kind <;> cases b.kind <;> cases c.kind <;> simp <;> omega
    have htotal : ∀ a b : Entry I O, ((!less b a) || !less a b) = true := by
      intro a b
      rw [Bool.or_eq_true, Bool.not_eq_true', Bool.not_eq_true', ← Bool.not_eq_true,
        ← Bool.not_eq_true, less_iff, less_iff]
      cases a.kind <;> cases b.kind <;> simp <;> omega
    exact (List.pairwise_mergeSort htrans htotal _).imp (by simp)

/-- States that `ShallowEqual` calls equal are equal. -/
theorem sound_shallow [DecidableEq S] (model : Model S I O) (h : model.equal = none) :
    SoundEqual (fillDefault model) := by
  intro s t heq i o hstep
  obtain rfl : s = t := by simpa [fillDefault, h, shallowEqual] using heq
  exact ⟨hstep,by simp [fillDefault, h, shallowEqual]⟩

/-- A register: an input that has a value writes it, one that has none reads. -/
def register : Filled Bool (Option Bool) Bool :=
  fillDefault {
    init := false
    step := fun state input output =>
      match input with
      | some value => (true, value)
      | none => (output = state, state) }

/-- A write, a read that overlaps with it and still finds the old value, and a
read after the write that finds it as well. -/
def staleRead : List (Operation (Option Bool) Bool) :=
  [⟨0,some true,1,false,4⟩, ⟨1,none,2,false,3⟩, ⟨1,none,5,false,6⟩]

def staleEntries : List (Entry (Option Bool) Bool) :=
  [callOf 0 ⟨0,some true,1,false,4⟩, callOf 1 ⟨1,none,2,false,3⟩, returnOf 1 ⟨1,none,2,false,3⟩,
    returnOf 0 ⟨0,some true,1,false,4⟩, callOf 2 ⟨1,none,5,false,6⟩, returnOf 2 ⟨1,none,5,false,6⟩]

/-- On every history of operations that were called before they returned,
however its entries are sorted, `checkSingle` ends. The sequences in `longest`
are partial linearizations with the operation. It returns true only if the
history is linearizable. If it returns false and was not killed, the history is
not linearizable, and if asked for it has recorded a longest partial
linearization for each operation that is in one. -/
theorem check_single_exact (model : Filled S I O) (hm : SoundEqual model)
    (history : List (Operation I O)) (hc : ∀ op ∈ history, op.call ≤ op.ret)
    (entries : List (Entry I O)) (he : MakesEntries history entries) :
    ∃ bound, ∀ computePartial kill fuel, bound ≤ fuel → ∃ ok p,
      checkSingle model entries computePartial kill fuel = some (some (ok, p)) ∧
      (∀ (i q : ℕ), p.longest[i]? = some (some q) → ∃ os, p.seqs[q]? = some (asIds os) ∧ i ∈ os ∧
        PartialLinearization model.step model.init history os) ∧
      (ok = true → LinearizableBy model.step model.init history) ∧
      (ok = false → (∀ k, kill k = false) →
        ¬ LinearizableBy model.step model.init history ∧
        (computePartial = true → ∀ os, PartialLinearization model.step model.init history os →
          ∀ i ∈ os, ∃ q seq, p.longest[i]? = some (some q) ∧ p.seqs[q]? = some seq ∧
            os.length ≤ seq.length)) := by
  obtain ⟨bound,hbound⟩ := check_returns (entries_history he hc) hm
  refine ⟨bound,fun computePartial kill fuel hf => ?_⟩
  obtain ⟨ok,p,j,hrun,hv⟩ := hbound computePartial kill fuel hf
  refine ⟨ok,p,hrun,fun i q h => ?_,fun hok => (linearizable_iff he model).mp (hv.accepted hok),
    fun hok hkill => ?_⟩
  · obtain ⟨os,hseq,hi,hp⟩ := hv.sound.partials i q h
    exact ⟨os,hseq,hi,(partial_iff he model os).mp hp⟩
  · obtain ⟨hnot,hlongest⟩ := hv.rejected hok (hkill j)
    exact ⟨fun h => hnot ((linearizable_iff he model).mpr h),fun hcp os hos =>
      hlongest hcp os ((partial_iff he model os).mpr hos)⟩

theorem check_single_exact_stale :
    checkSingle register staleEntries true (fun _ => false) 12 =
      some (some (false, ⟨[some 1, some 1, none],[[0], [1, 0], [1]]⟩)) ∧
    ∃ bound, ∀ computePartial kill fuel, bound ≤ fuel → ∃ ok p,
      checkSingle register staleEntries computePartial kill fuel = some (some (ok, p)) ∧
      (ok = false → (∀ k, kill k = false) →
        ¬ LinearizableBy register.step register.init staleRead) := by
  refine ⟨by decide +kernel,?_⟩
  obtain ⟨bound,h⟩ := check_single_exact register (sound_shallow _ rfl) staleRead (by decide)
    staleEntries ⟨by decide,by decide⟩
  refine ⟨bound,fun computePartial kill fuel hf => ?_⟩
  obtain ⟨ok,p,hrun,-,-,hrej⟩ := h computePartial kill fuel hf
  exact ⟨ok,p,hrun,fun hok hkill => (hrej hok hkill).1⟩

end Mitdist.CheckerHistories
