import Mathlib.Data.List.Perm.Basic
import Mathlib.Data.List.Perm.Lattice
import Mathlib.Data.List.Dedup
import Mathlib.Order.Lattice
import Mathlib.Order.MinMax

/-!
# Linearizability is local

Operations on objects take intervals of time. If the operations of each object
can be ordered on their own, so can all operations together: each takes effect
at the latest call among the operations of its object up to it, and operations
of different objects are merged by these moments.
-/

set_option autoImplicit false

namespace Mitdist.Locality
open scoped List

variable {ι S K T : Type*} [LinearOrder T] (call ret : ι → T)

/-- No operation comes after one that was called when it had returned. -/
def Timely (os : List ι) : Prop := os.Pairwise (fun a b => ¬ ret b < call a)

def LinearizableIn (legal : S → ι → Option S) (s : S) (dom : List ι) : Prop :=
  ∃ os, os ~ dom ∧ Timely call ret os ∧ (os.foldlM legal s).isSome

def momentsFrom (t : T) : List ι → List (T × ι)
  | [] => []
  | i::os => (max t (call i),i) :: momentsFrom (max t (call i)) os

/-- The operations with the moments at which they take effect. -/
def moments : List ι → List (T × ι)
  | [] => []
  | i::os => (call i,i) :: momentsFrom call (call i) os

variable {call ret}

theorem moments_from_snd (t : T) (os : List ι) : (momentsFrom call t os).map Prod.snd = os := by
  induction os generalizing t with
  | nil => rfl
  | cons i os ih => simp [momentsFrom, ih]

theorem moments_snd (os : List ι) : (moments call os).map Prod.snd = os := by
  cases os with
  | nil => rfl
  | cons i os => simp [moments, moments_from_snd]

variable (call) in
theorem moments_from_sorted (t : T) (os : List ι) :
    (momentsFrom call t os).Pairwise (fun a b => a.1 ≤ b.1) ∧
      ∀ x ∈ momentsFrom call t os, t ≤ x.1 := by
  induction os generalizing t with
  | nil => simp [momentsFrom]
  | cons i os ih =>
    obtain ⟨hsorted,hle⟩ := ih (max t (call i))
    refine ⟨List.pairwise_cons.mpr ⟨hle,hsorted⟩,fun x hx => ?_⟩
    rcases List.mem_cons.mp hx with rfl | hx
    · exact le_max_left _ _
    · exact (le_max_left _ _).trans (hle x hx)

theorem moments_sorted (os : List ι) : (moments call os).Pairwise (fun a b => a.1 ≤ b.1) := by
  cases os with
  | nil => exact .nil
  | cons i os =>
    obtain ⟨hsorted,hle⟩ := moments_from_sorted call (call i) os
    exact List.pairwise_cons.mpr ⟨hle,hsorted⟩

theorem moments_from_within (t : T) (os : List ι) (ht : Timely call ret os)
    (hc : ∀ i ∈ os, call i ≤ ret i) (hle : ∀ i ∈ os, t ≤ ret i) :
    ∀ x ∈ momentsFrom call t os, call x.2 ≤ x.1 ∧ x.1 ≤ ret x.2 := by
  induction os generalizing t with
  | nil => simp [momentsFrom]
  | cons i os ih =>
    obtain ⟨hfirst,ht⟩ := List.pairwise_cons.mp ht
    intro x hx
    rcases List.mem_cons.mp hx with rfl | hx
    · exact ⟨le_max_right _ _,max_le (hle i List.mem_cons_self) (hc i List.mem_cons_self)⟩
    · refine ih (max t (call i)) ht (fun j hj => hc j (List.mem_cons_of_mem _ hj)) (fun j hj => ?_)
        x hx
      exact max_le (hle j (List.mem_cons_of_mem _ hj)) (not_lt.mp (hfirst j hj))

/-- Every operation takes effect between its call and its return. -/
theorem moments_within (os : List ι) (ht : Timely call ret os) (hc : ∀ i ∈ os, call i ≤ ret i) :
    ∀ x ∈ moments call os, call x.2 ≤ x.1 ∧ x.1 ≤ ret x.2 := by
  cases os with
  | nil => simp [moments]
  | cons i os =>
    obtain ⟨hfirst,ht⟩ := List.pairwise_cons.mp ht
    intro x hx
    rcases List.mem_cons.mp hx with rfl | hx
    · exact ⟨le_rfl,hc i List.mem_cons_self⟩
    · exact moments_from_within (call i) os ht (fun j hj => hc j (List.mem_cons_of_mem _ hj))
        (fun j hj => not_lt.mp (hfirst j hj)) x hx

def sooner (a b : T × ι) : Bool := decide (a.1 ≤ b.1)

theorem sooner_trans (a b c : T × ι) (hab : sooner a b) (hbc : sooner b c) : sooner a c :=
  decide_eq_true ((of_decide_eq_true hab).trans (of_decide_eq_true hbc))

theorem sooner_total (a b : T × ι) : sooner a b || sooner b a := by
  simpa [sooner] using le_total a.1 b.1

variable (call) in
/-- The operations of all keys, merged by the moments at which they take effect. -/
def merged (keys : List K) (os : K → List ι) : List (T × ι) :=
  (keys.flatMap (fun k => moments call (os k))).mergeSort sooner

theorem merged_sorted (keys : List K) (os : K → List ι) :
    (merged call keys os).Pairwise (fun a b => a.1 ≤ b.1) :=
  (List.pairwise_mergeSort sooner_trans sooner_total _).imp of_decide_eq_true

theorem merged_perm (keys : List K) (os : K → List ι) :
    (merged call keys os).map Prod.snd ~ keys.flatMap os := by
  refine ((List.mergeSort_perm _ _).map Prod.snd).trans ?_
  rw [List.map_flatMap]
  exact .of_eq (List.flatMap_congr fun k _ => moments_snd (os k))

variable (call) in
theorem merged_sublist {keys : List K} (os : K → List ι) {k : K} (hk : k ∈ keys) :
    os k <+ (merged call keys os).map Prod.snd := by
  have hsub : moments call (os k) <+ merged call keys os := by
    refine List.sublist_mergeSort sooner_trans sooner_total
      ((moments_sorted (os k)).imp decide_eq_true) ?_
    rw [List.flatMap_def]
    exact List.sublist_flatten_of_mem (List.mem_map_of_mem hk)
  simpa [moments_snd] using hsub.map Prod.snd

theorem merged_timely {keys : List K} {os : K → List ι} (ht : ∀ k, Timely call ret (os k))
    (hc : ∀ k, ∀ i ∈ os k, call i ≤ ret i) :
    Timely call ret ((merged call keys os).map Prod.snd) := by
  have hw : ∀ x ∈ merged call keys os, call x.2 ≤ x.1 ∧ x.1 ≤ ret x.2 := by
    intro x hx
    obtain ⟨k,-,hx⟩ := List.mem_flatMap.mp ((List.mergeSort_perm _ _).mem_iff.mp hx)
    exact moments_within (os k) (ht k) (hc k) x hx
  refine List.pairwise_map.mpr ((merged_sorted keys os).imp_of_mem fun {a b} ha hb hle => ?_)
  exact not_lt.mpr ((hw a ha).1.trans (hle.trans (hw b hb).2))

variable [DecidableEq K] (key : ι → K)

/-- Each operation acts on the object of its key. -/
def product (legal : S → ι → Option S) (m : K → S) (i : ι) : Option (K → S) :=
  (legal (m (key i)) i).map (Function.update m (key i))

def ofKey (k : K) (os : List ι) : List ι := os.filter (fun i => key i = k)

variable {key}

theorem product_fold (legal : S → ι → Option S) (os : List ι) (m : K → S) :
    (os.foldlM (product key legal) m).isSome ↔
      ∀ k, ((ofKey key k os).foldlM legal (m k)).isSome := by
  induction os generalizing m with
  | nil => simp [ofKey]
  | cons i os ih =>
    cases hl : legal (m (key i)) i with
    | none =>
      have hnone : ((ofKey key (key i) (i::os)).foldlM legal (m (key i))) = none := by
        simp [ofKey, hl]
      constructor
      · simp [product, hl]
      · intro h
        have := h (key i)
        simp [hnone] at this
    | some s =>
      simp only [List.foldlM_cons, product, hl, Option.map_some, Option.bind_eq_bind,
        Option.bind_some, ih]
      refine forall_congr' fun k => ?_
      by_cases hk : key i = k
      · subst hk
        simp [ofKey, hl]
      · simp [ofKey, hk, Function.update_of_ne (Ne.symm hk)]

theorem of_key_perm {os os' : List ι} (h : os ~ os') (k : K) : ofKey key k os ~ ofKey key k os' :=
  h.filter _

theorem of_key_all {k : K} {os : List ι} (h : ∀ i ∈ os, key i = k) : ofKey key k os = os :=
  List.filter_eq_self.mpr fun i hi => decide_eq_true (h i hi)

/-- The groups of all keys are a rearrangement of the operations. -/
theorem perm_of_keys {keys : List K} (hnd : keys.Nodup) (dom : List ι)
    (hmem : ∀ i ∈ dom, key i ∈ keys) : keys.flatMap (fun k => ofKey key k dom) ~ dom := by
  induction keys generalizing dom with
  | nil => simp [List.eq_nil_iff_forall_not_mem.mpr fun i hi => List.not_mem_nil (hmem i hi)]
  | cons k keys ih =>
    obtain ⟨hk,hnd⟩ := List.nodup_cons.mp hnd
    have hrest : keys.flatMap (fun l => ofKey key l dom) =
        keys.flatMap (fun l => ofKey key l (dom.filter (fun i => !decide (key i = k)))) := by
      refine List.flatMap_congr fun l hl => ?_
      rw [ofKey, ofKey, List.filter_filter]
      refine List.filter_congr fun i _ => ?_
      by_cases hi : key i = l
      · simp [hi, show l ≠ k from fun h => hk (h ▸ hl)]
      · simp [hi]
    rw [List.flatMap_cons, hrest]
    refine ((ih hnd _ fun i hi => ?_).append_left _).trans (List.filter_append_perm _ dom)
    obtain ⟨hi,hne⟩ := List.mem_filter.mp hi
    exact (List.mem_cons.mp (hmem i hi)).resolve_left (by simpa using hne)

theorem of_key_linearizable {legal : S → ι → Option S} {m : K → S} {dom : List ι}
    (h : LinearizableIn call ret (product key legal) m dom) (k : K) :
    LinearizableIn call ret legal (m k) (ofKey key k dom) := by
  obtain ⟨os,hperm,ht,hl⟩ := h
  exact ⟨ofKey key k os,of_key_perm hperm k,ht.filter _,(product_fold legal os m).mp hl k⟩

/-- Operations of all objects can be ordered together exactly when those of each object can. -/
theorem locality {legal : S → ι → Option S} {m : K → S} {dom : List ι}
    (hc : ∀ i ∈ dom, call i ≤ ret i) :
    LinearizableIn call ret (product key legal) m dom ↔
      ∀ k, LinearizableIn call ret legal (m k) (ofKey key k dom) := by
  refine ⟨of_key_linearizable,fun h => ?_⟩
  choose os hperm ht hl using h
  let keys := (dom.map key).dedup
  have hkeys : ∀ i ∈ dom, key i ∈ keys :=
    fun i hi => List.mem_dedup.mpr (List.mem_map_of_mem hi)
  have hmem : ∀ k, ∀ i ∈ os k, i ∈ dom ∧ key i = k := by
    intro k i hi
    simpa [ofKey] using (hperm k).mem_iff.mp hi
  have hall : (merged call keys os).map Prod.snd ~ dom := by
    refine (merged_perm keys os).trans (.trans ?_ (perm_of_keys (List.nodup_dedup _) dom hkeys))
    exact List.Perm.flatMap_left _ fun k _ => hperm k
  have hof : ∀ k, ofKey key k ((merged call keys os).map Prod.snd) = os k := by
    intro k
    have hp := (of_key_perm hall k).trans (hperm k).symm
    by_cases hk : k ∈ keys
    · have hsub := (merged_sublist call os hk).filter (fun i => key i = k)
      rw [show (os k).filter (fun i => key i = k) = os k from
        of_key_all fun i hi => (hmem k i hi).2] at hsub
      exact (hsub.eq_of_length hp.length_eq.symm).symm
    · have hnil : os k = [] := List.eq_nil_iff_forall_not_mem.mpr fun i hi =>
        hk ((hmem k i hi).2 ▸ hkeys i (hmem k i hi).1)
      rw [hnil] at hp ⊢
      exact hp.eq_nil
  refine ⟨_,hall,merged_timely ht fun k i hi => hc i (hmem k i hi).1,?_⟩
  exact (product_fold legal _ m).mpr fun k => by rw [hof k]; exact hl k

end Mitdist.Locality
