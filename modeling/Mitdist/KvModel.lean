import Mitdist.ParallelRuns
import Mitdist.Locality

/-!
# Checking a key/value store key by key

The model of the key/value store describes the value of a single key, and has
the history partitioned by key. The check of all partitions decides whether the
whole history is one of a store with all keys.
-/

set_option autoImplicit false

namespace Mitdist.KvModel
open Mitdist.Checker Mitdist.CheckerSearch Mitdist.CheckerHistories Mitdist.ParallelChecker
open Mitdist.ParallelRuns Mitdist.Locality Mitdist.TransitionSystem
open Mitdist.IntervalHistory (pair_sublist pair_once)
open scoped List

section
variable {S I O : Type}

def perform (step : S → I → O → Bool × S) (s : S) (op : Operation I O) : Option S :=
  let (ok, s') := step s op.input op.output
  if ok then some s' else none

/-- The indices name the operations. -/
def Names (history : List (Operation I O)) (os : List ℕ) (ops : List (Operation I O)) : Prop :=
  os.map (fun i => history[i]?) = ops.map some

variable {history : List (Operation I O)} {os : List ℕ} {ops : List (Operation I O)}

theorem names_all (history : List (Operation I O)) :
    Names history (List.range history.length) history := by
  refine List.ext_getElem? fun i => ?_
  by_cases hi : i < history.length
  · simp [hi]
  · simp [hi]

theorem names_fold (h : Names history os ops) (step : S → I → O → Bool × S) (s : S) :
    os.foldlM (applyOp step history) s = ops.foldlM (perform step) s := by
  have hleft : os.foldlM (applyOp step history) s =
      (os.map (fun i => history[i]?)).foldlM (fun s o => o.bind (perform step s)) s := by
    rw [List.foldlM_map]
    rfl
  rw [hleft, h, List.foldlM_map]
  rfl

theorem names_timely (h : Names history os ops) :
    os.Pairwise (fun i j => ¬ Precedes history j i) ↔
      Timely Operation.call Operation.ret ops := by
  let R (x y : Option (Operation I O)) : Prop := ∃ a b, y = some a ∧ x = some b ∧ a.ret < b.call
  have hleft : (os.map (fun i => history[i]?)).Pairwise (fun x y => ¬ R x y) ↔
      os.Pairwise (fun i j => ¬ Precedes history j i) := List.pairwise_map
  rw [← hleft, h, List.pairwise_map]
  simp [R, Timely]

theorem names_iff : Names history os ops ↔
    List.Forall₂ (fun i op => history[i]? = some op) os ops := by
  rw [Names, ← List.forall₂_eq_eq_eq, List.forall₂_map_left_iff, List.forall₂_map_right_iff]

theorem names_perm (h : os ~ List.range history.length) :
    ∃ ops, Names history os ops ∧ ops ~ history := by
  obtain ⟨ops,hops,hperm⟩ := List.perm_comp_forall₂ h (names_iff.mp (names_all history))
  exact ⟨ops,names_iff.mpr hops,hperm⟩

theorem perm_names (h : ops ~ history) :
    ∃ os, Names history os ops ∧ os ~ List.range history.length := by
  obtain ⟨os,hos,hperm⟩ := List.perm_comp_forall₂ h (names_iff.mp (names_all history)).flip
  exact ⟨os,names_iff.mpr hos.flip,hperm⟩

/-- The order of a linearization, as an order of the operations themselves. -/
theorem linearizable_operations (step : S → I → O → Bool × S) (init : S)
    (history : List (Operation I O)) (hc : ∀ op ∈ history, op.call ≤ op.ret) :
    LinearizableBy step init history ↔
      LinearizableIn Operation.call Operation.ret (perform step) init history := by
  constructor
  · rintro ⟨os,hos,hall⟩
    have hperm : os ~ List.range history.length :=
      (List.perm_ext_iff_of_nodup hos.nodup List.nodup_range).mpr fun i =>
        ⟨fun hi => List.mem_range.mpr (hos.within i hi),fun hi => hall i (List.mem_range.mp hi)⟩
    obtain ⟨ops,hn,hops⟩ := names_perm hperm
    refine ⟨ops,hops,(names_timely hn).mp (List.pairwise_iff_forall_sublist.mpr ?_),
      names_fold hn step init ▸ hos.legal⟩
    intro i j hij hprec
    exact pair_once hos.nodup hij (hos.order i (hij.subset List.mem_cons_self) j hprec)
  · rintro ⟨ops,hops,ht,hl⟩
    obtain ⟨os,hn,hperm⟩ := perm_names hops
    have ht := (names_timely hn).mpr ht
    have hmem : ∀ i, i ∈ os ↔ i < history.length := fun i => by rw [hperm.mem_iff, List.mem_range]
    refine ⟨os,⟨hperm.nodup_iff.mpr List.nodup_range,fun i hi => (hmem i).mp hi,?_,
      names_fold hn step init ▸ hl⟩,fun i hi => (hmem i).mpr hi⟩
    intro j hj i hprec
    obtain ⟨a,b,ha,hb,hlt⟩ := hprec
    have hne : i ≠ j := by
      rintro rfl
      obtain rfl := Option.some.inj (ha.symm.trans hb)
      exact absurd hlt (not_lt.mpr (hc a (List.mem_of_getElem? ha)))
    refine (pair_sublist ((hmem i).mpr (List.getElem?_eq_some_iff.mp ha).1) hj hne).resolve_right ?_
    exact fun hji => List.pairwise_iff_forall_sublist.mp ht hji ⟨a,b,ha,hb,hlt⟩

end

structure KvInput where
  op : UInt8
  key : String
  value : String
  deriving DecidableEq, Repr

structure KvOutput where
  value : String
  deriving DecidableEq, Repr

abbrev KvOperation : Type := Operation KvInput KvOutput

/-- `m[key]`, which is nil for a key that the map does not have. -/
def entryOf (key : String) : List (String × List KvOperation) → List KvOperation
  | [] => []
  | (k,ops)::m => if k = key then ops else entryOf key m

/-- `m[key] = append(m[key], v)`, with the entries of the map in the order of their insertion. -/
def appendTo (key : String) (v : KvOperation) :
    List (String × List KvOperation) → List (String × List KvOperation)
  | [] => [(key,[v])]
  | (k,ops)::m => if k = key then (k,ops ++ [v])::m else (k,ops)::appendTo key v m

def groups (history : List KvOperation) : List (String × List KvOperation) :=
  history.foldl (fun m v => appendTo v.input.key v m) []

def partition (history : List KvOperation) : List (List KvOperation) :=
  let m := groups history
  let keys := (m.map Prod.fst).mergeSort (fun a b => decide (a ≤ b))
  keys.map (fun k => entryOf k m)

def step (state : String) (inp : KvInput) (out : KvOutput) : Bool × String :=
  if inp.op = 0 then (out.value = state, state)
  else if inp.op = 1 then (true, inp.value)
  else (true, state ++ inp.value)

def kvModel : Model String KvInput KvOutput where
  partition := some partition
  init := ""
  step := step

/-- A store of all keys: each operation acts on the value of its key. -/
def storeStep (store : String → String) (inp : KvInput) (out : KvOutput) :
    Bool × (String → String) :=
  let (ok, value) := step (store inp.key) inp out
  (ok, Function.update store inp.key value)

def keyOf (op : KvOperation) : String := op.input.key

theorem entry_append (key k : String) (v : KvOperation) (m : List (String × List KvOperation)) :
    entryOf k (appendTo key v m) = entryOf k m ++ if key = k then [v] else [] := by
  induction m with
  | nil => simp [appendTo, entryOf]
  | cons e m ih =>
    obtain ⟨l,ops⟩ := e
    by_cases hl : l = key
    · subst hl
      by_cases hk : l = k <;> simp [appendTo, entryOf, hk]
    · by_cases hk : l = k
      · subst hk
        simp [appendTo, entryOf, hl, Ne.symm hl]
      · simp [appendTo, entryOf, hl, hk, ih]

theorem keys_append (key : String) (v : KvOperation) (m : List (String × List KvOperation)) :
    (appendTo key v m).map Prod.fst =
      if key ∈ m.map Prod.fst then m.map Prod.fst else m.map Prod.fst ++ [key] := by
  induction m with
  | nil => simp [appendTo]
  | cons e m ih =>
    obtain ⟨l,ops⟩ := e
    by_cases hl : l = key
    · simp [appendTo, hl]
    · have hne : key ≠ l := Ne.symm hl
      simp only [appendTo, if_neg hl, List.map_cons, List.mem_cons, hne, false_or, ih]
      split_ifs <;> rfl

/-- The map has each key of the history once, with the operations of that key in order. -/
theorem groups_spec (history : List KvOperation) :
    (∀ k, entryOf k (groups history) = ofKey keyOf k history) ∧
      ((groups history).map Prod.fst).Nodup ∧
      ∀ k, k ∈ (groups history).map Prod.fst ↔ k ∈ history.map keyOf := by
  induction history using List.reverseRecOn with
  | nil => simp [groups, entryOf, ofKey]
  | append_singleton history v ih =>
    obtain ⟨hentry,hnodup,hkeys⟩ := ih
    have hgroups : groups (history ++ [v]) = appendTo v.input.key v (groups history) := by
      simp [groups]
    rw [hgroups]
    refine ⟨fun k => ?_,?_,fun k => ?_⟩
    · rw [entry_append, hentry, ofKey, ofKey, List.filter_append]
      by_cases hk : v.input.key = k <;> simp [keyOf, hk]
    · rw [keys_append]
      split_ifs with hin
      · exact hnodup
      · exact List.nodup_append.mpr ⟨hnodup,by simp,by
          rintro a ha b hb rfl
          exact hin (List.mem_singleton.mp hb ▸ ha)⟩
    · rw [keys_append]
      split_ifs with hin
      · rw [hkeys] at hin ⊢
        simp only [List.map_append, List.mem_append]
        exact ⟨.inl,fun h => h.elim id fun h => List.mem_singleton.mp h ▸ hin⟩
      · simp only [List.map_append, List.mem_append, hkeys]
        rfl

theorem partition_sorted {history : List KvOperation} {keys : List String}
    (hk : (groups history).map Prod.fst = keys)
    (hs : keys.Pairwise (fun a b => decide (a ≤ b) = true)) :
    partition history = keys.map (fun k => entryOf k (groups history)) := by
  subst hk
  rw [partition, List.mergeSort_of_pairwise hs]

theorem mem_partition (history : List KvOperation) (part : List KvOperation) :
    part ∈ partition history ↔ ∃ k ∈ history.map keyOf, part = ofKey keyOf k history := by
  obtain ⟨hentry,-,hkeys⟩ := groups_spec history
  simp only [partition, List.mem_map, List.mem_mergeSort, hentry, ← hkeys, eq_comm]

theorem perform_store (store : String → String) (op : KvOperation) :
    perform storeStep store op = product keyOf (perform step) store op := by
  cases hok : (step (store op.input.key) op.input op.output).1 <;>
    simp [perform, storeStep, product, keyOf, hok]

/-- A history of the whole store is linearizable exactly when the partitions are. -/
theorem store_linearizable {history : List KvOperation}
    (hc : ∀ op ∈ history, op.call ≤ op.ret) :
    LinearizableBy storeStep (fun _ => "") history ↔
      ∀ part ∈ partition history, LinearizableBy step "" part := by
  have hpart : ∀ k, LinearizableBy step "" (ofKey keyOf k history) ↔
      LinearizableIn Operation.call Operation.ret (perform step) "" (ofKey keyOf k history) :=
    fun k => linearizable_operations step "" _ fun op hop => hc op (List.mem_of_mem_filter hop)
  have hstore : perform storeStep = product keyOf (perform step) :=
    funext fun store => funext fun op => perform_store store op
  rw [linearizable_operations storeStep _ _ hc, hstore, locality hc]
  constructor
  · intro h part hin
    obtain ⟨k,-,rfl⟩ := (mem_partition history part).mp hin
    exact (hpart k).mpr (h k)
  · intro h k
    by_cases hk : k ∈ history.map keyOf
    · exact (hpart k).mp (h _ ((mem_partition history _).mpr ⟨k,hk,rfl⟩))
    · have hnil : ofKey keyOf k history = [] := List.filter_eq_nil_iff.mpr fun op hop heq =>
        hk (List.mem_map.mpr ⟨op,hop,of_decide_eq_true heq⟩)
      rw [hnil]
      exact ⟨[],.nil,.nil,rfl⟩

theorem partition_called {history : List KvOperation} (hc : ∀ op ∈ history, op.call ≤ op.ret) :
    ∀ part ∈ partition history, ∀ op ∈ part, op.call ≤ op.ret := by
  intro part hin op hop
  obtain ⟨k,-,rfl⟩ := (mem_partition history part).mp hin
  exact hc op (List.mem_of_mem_filter hop)

def putX : KvOperation := ⟨0,⟨1,"x","1"⟩,1,⟨""⟩,2⟩

def getY : KvOperation := ⟨1,⟨0,"y",""⟩,3,⟨""⟩,4⟩

def getX : KvOperation := ⟨1,⟨0,"x",""⟩,5,⟨""⟩,6⟩

/-- A put that a later get of the same key does not find. -/
def lostPut : List KvOperation := [putX, getY, getX]

def sortedX : List (Entry KvInput KvOutput) :=
  [callOf 0 putX, returnOf 0 putX, callOf 1 getX, returnOf 1 getX]

def sortedY : List (Entry KvInput KvOutput) := [callOf 0 getY, returnOf 0 getY]

theorem lost_put_parts : partition lostPut = [[putX, getX], [getY]] := by
  have hkeys : (groups lostPut).map Prod.fst = ["x", "y"] := by decide
  rw [partition_sorted hkeys (by decide)]
  decide

theorem lost_put_starts :
    StartsOperations (fillDefault kvModel) lostPut (checkParallel [sortedX, sortedY]) := by
  refine ⟨[sortedX, sortedY],?_,rfl⟩
  rw [show (fillDefault kvModel).partition lostPut = [[putX, getX], [getY]] from lost_put_parts]
  exact .cons ⟨by decide,by decide⟩ (.cons ⟨by decide,by decide⟩ .nil)

/-- `CheckOperations` with the model of a single key decides whether the history
is one of a store with all keys: whatever the goroutines do, a check that
returns Ok has found one, a check that returns Illegal has found that there is
none, and a check returns Unknown only when the time was up. -/
theorem check_store (history : List KvOperation) (hc : ∀ op ∈ history, op.call ≤ op.ret)
    (verbose : Bool) (timeout : ℤ) (c₀ : Parallel String KvInput KvOutput)
    (h₀ : StartsOperations (fillDefault kvModel) history c₀) (es : List ParallelChecker.Event)
    (c : Parallel String KvInput KvOutput)
    (h : exec (ParallelChecker.step (fillDefault kvModel) verbose timeout) c₀ es = some c)
    (hphase : c.phase = .finished) :
    (result c = .ok → LinearizableBy storeStep (fun _ => "") history) ∧
    (result c = .illegal → ¬ LinearizableBy storeStep (fun _ => "") history) ∧
    (result c = .unknown → .timeout ∈ es ∧ 0 < timeout) := by
  obtain ⟨hok,hillegal,hunknown⟩ :=
    result_exact (sound_shallow kvModel rfl) (partition_called hc) h₀ h hphase
  refine ⟨fun hr => (store_linearizable hc).mpr (hok hr),fun hr hlin => ?_,hunknown⟩
  obtain ⟨part,hin,hnot⟩ := hillegal hr
  exact hnot ((store_linearizable hc).mp hlin part hin)

theorem check_store_lost_put :
    ∃ c, exec (ParallelChecker.step (fillDefault kvModel) false 0)
        (checkParallel [sortedX, sortedY])
        (List.replicate 5 (.routine 0) ++ [.routine 1, .routine 0, .receive]) = some c ∧
      result c = .illegal ∧ ¬ LinearizableBy storeStep (fun _ => "") lostPut := by
  obtain ⟨c,hc,hview⟩ := Option.map_eq_some_iff.mp
    (by decide +kernel : (exec (ParallelChecker.step (fillDefault kvModel) false 0)
      (checkParallel [sortedX, sortedY])
      (List.replicate 5 (.routine 0) ++ [.routine 1, .routine 0, .receive])).map
        (fun c => (c.phase, result c)) = some (.finished, .illegal))
  obtain ⟨hphase,hresult⟩ : c.phase = .finished ∧ result c = .illegal := by simpa using hview
  exact ⟨c,hc,hresult,(check_store lostPut (by decide) false 0 _ lost_put_starts _ c hc hphase).2.1
    hresult⟩

end Mitdist.KvModel
