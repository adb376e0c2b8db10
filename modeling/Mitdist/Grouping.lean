import Mathlib.Data.List.Perm.Basic
import Mathlib.Data.List.Nodup
import Mathlib.Data.List.Count

/-!
# Grouping by a key

A grouped output has one entry for every key that occurs, computed from the
values of that key. Up to order it is determined by the input up to order, if
the computation does not depend on the order of the values. It can be computed
from the runs of equal keys of a sorted list, and from the parts of the input
that a function of the key selects.
-/

set_option autoImplicit false

namespace Mitdist.Grouping

variable {ι κ α β : Type*} [DecidableEq κ] (key : ι → κ) (val : ι → α) (f : κ → List α → β)

def values (k : κ) (l : List ι) : List α := (l.filter (fun x => key x = k)).map val

structure Grouped (l : List ι) (out : List (κ × β)) : Prop where
  nodup : (out.map Prod.fst).Nodup
  mem : ∀ k b, (k,b) ∈ out ↔ k ∈ l.map key ∧ b = f k (values key val k l)

/-- The computation does not depend on the order of the values of a key. -/
def OrderInsensitive : Prop := ∀ k (vs ws : List α), vs.Perm ws → f k vs = f k ws

omit [DecidableEq κ] in
/-- A computation from the number of the values does not. -/
theorem length_insensitive (g : κ → ℕ → β) :
    OrderInsensitive (fun k (vs : List α) => g k vs.length) := by
  intro k vs ws hp
  simp only [hp.length_eq]

variable {key val f}

theorem grouped_nil : Grouped key val f [] [] := by
  constructor
  · exact List.nodup_nil
  · simp

theorem grouped_keys {l : List ι} {out : List (κ × β)} (h : Grouped key val f l out) (k : κ) :
    k ∈ out.map Prod.fst ↔ k ∈ l.map key := by
  constructor
  · intro hk
    obtain ⟨⟨k,b⟩,hm,rfl⟩ := List.mem_map.mp hk
    exact ((h.mem k b).mp hm).1
  · intro hk
    exact List.mem_map.mpr ⟨_,(h.mem k _).mpr ⟨hk,rfl⟩,rfl⟩

theorem grouped_unique {l : List ι} {out out' : List (κ × β)} (h : Grouped key val f l out)
    (h' : Grouped key val f l out') : out.Perm out' := by
  rw [List.perm_ext_iff_of_nodup (List.Nodup.of_map _ h.nodup) (List.Nodup.of_map _ h'.nodup)]
  intro p
  rw [h.mem p.1 p.2, h'.mem p.1 p.2]

theorem grouped_perm (hf : OrderInsensitive f) {l l' : List ι} {out : List (κ × β)}
    (hp : l.Perm l') (h : Grouped key val f l out) : Grouped key val f l' out := by
  constructor
  · exact h.nodup
  · intro k b
    have hvalues : (values key val k l).Perm (values key val k l') := (hp.filter _).map _
    rw [h.mem k b, (hp.map key).mem_iff, hf k _ _ hvalues]

theorem values_append (k : κ) (l l' : List ι) :
    values key val k (l ++ l') = values key val k l ++ values key val k l' := by
  simp [values]

theorem values_all (k : κ) (l : List ι) (h : ∀ x ∈ l, key x = k) :
    values key val k l = l.map val := by
  rw [values, List.filter_eq_self.mpr (by simpa using h)]

theorem values_none (k : κ) (l : List ι) (h : k ∉ l.map key) : values key val k l = [] := by
  rw [values, List.filter_eq_nil_iff.mpr, List.map_nil]
  intro x hx hk
  exact h (List.mem_map.mpr ⟨x,hx,by simpa using hk⟩)

/-- The first run of equal keys, if its key does not occur again. -/
theorem grouped_run {k : κ} {run rest : List ι} {out : List (κ × β)} (hne : run ≠ [])
    (hrun : ∀ x ∈ run, key x = k) (hrest : k ∉ rest.map key)
    (h : Grouped key val f rest out) :
    Grouped key val f (run ++ rest) ((k,f k (run.map val)) :: out) := by
  have hkeys : ∀ k', k' ∈ run.map key ↔ k' = k := by
    intro k'
    constructor
    · intro hk
      obtain ⟨x,hx,rfl⟩ := List.mem_map.mp hk
      exact hrun x hx
    · rintro rfl
      obtain ⟨x,hx⟩ := List.exists_mem_of_ne_nil run hne
      exact List.mem_map.mpr ⟨x,hx,hrun x hx⟩
  constructor
  · rw [List.map_cons, List.nodup_cons, grouped_keys h]
    exact ⟨hrest,h.nodup⟩
  · intro k' b
    rw [List.mem_cons, Prod.mk.injEq, h.mem, List.map_append, List.mem_append, hkeys,
      values_append]
    by_cases hk : k' = k
    · subst hk
      rw [values_all k' run hrun, values_none k' rest hrest]
      simp [hrest]
    · have hout : values key val k' run = [] := by
        apply values_none
        rw [hkeys]
        exact hk
      simp [hk, hout]

theorem values_filter (k : κ) (p : κ → Bool) (l : List ι) (hp : p k = true) :
    values key val k (l.filter (fun x => p (key x))) = values key val k l := by
  rw [values, values, List.filter_filter]
  congr 1
  apply List.filter_congr
  intro x _
  by_cases hx : key x = k
  · simp [hx, hp]
  · simp [hx]

/-- What the grouping of the part of a value has. -/
theorem grouped_part_mem (h : κ → ℕ) (p : ℕ) {l : List ι} {out : List (κ × β)}
    (hg : Grouped key val f (l.filter (fun x => h (key x) = p)) out) (k : κ) (b : β) :
    (k,b) ∈ out ↔ h k = p ∧ k ∈ l.map key ∧ b = f k (values key val k l) := by
  have hkey : k ∈ (l.filter (fun x => h (key x) = p)).map key ↔ h k = p ∧ k ∈ l.map key := by
    simp only [List.mem_map, List.mem_filter, decide_eq_true_eq]
    constructor
    · rintro ⟨x,⟨hx,hh⟩,rfl⟩
      exact ⟨hh,x,hx,rfl⟩
    · rintro ⟨hh,x,hx,rfl⟩
      exact ⟨x,⟨hx,hh⟩,rfl⟩
  rw [hg.mem k b, hkey, and_assoc]
  apply and_congr_right
  intro hh
  rw [values_filter k (fun k' => decide (h k' = p)) l (by simpa using hh)]

/-- The parts that a function of the key selects are grouped separately. -/
theorem grouped_parts {n : ℕ} (h : κ → ℕ) (hlt : ∀ k, h k < n) {l : List ι}
    {outs : ℕ → List (κ × β)}
    (hg : ∀ p < n, Grouped key val f (l.filter (fun x => h (key x) = p)) (outs p)) :
    Grouped key val f l ((List.range n).flatMap outs) := by
  have hpart := fun p hp => grouped_part_mem h p (hg p hp)
  constructor
  · rw [List.map_flatMap, List.nodup_flatMap]
    constructor
    · intro p hp
      exact (hg p (List.mem_range.mp hp)).nodup
    · apply List.Nodup.pairwise_of_forall_ne List.nodup_range
      intro p hp q hq hne k hkp hkq
      obtain ⟨⟨k,b⟩,hb,rfl⟩ := List.mem_map.mp hkp
      obtain ⟨⟨k',c⟩,hc,hkk⟩ := List.mem_map.mp hkq
      have hhp := ((hpart p (List.mem_range.mp hp) k b).mp hb).1
      have hhq := ((hpart q (List.mem_range.mp hq) k' c).mp hc).1
      have hk : k' = k := hkk
      rw [hk] at hhq
      exact hne (hhp.symm.trans hhq)
  · intro k b
    simp only [List.mem_flatMap, List.mem_range]
    constructor
    · rintro ⟨p,hp,hm⟩
      exact ((hpart p hp k b).mp hm).2
    · intro hm
      exact ⟨h k,hlt k,(hpart _ (hlt k) k b).mpr ⟨rfl,hm⟩⟩

end Mitdist.Grouping
