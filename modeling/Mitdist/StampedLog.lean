import Mathlib.Data.List.Infix

/-!
# Logs of stamped entries

Every entry carries a stamp, and a position of a log is the number of
entries before it. The stamp at position zero is zero: it stands for the
empty prefix. Merging a proposed prefix keeps a log that already contains
it and replaces every other log.
-/

set_option autoImplicit false

namespace Mitdist.StampedLog

variable {E : Type*}

open Classical in
noncomputable def merge (l m : List E) : List E := if m <+: l then l else m

theorem take_of_below (l m : List E) (k : ℕ) (h : l <+: m) (hk : k ≤ l.length) :
    l.take k = m.take k := by
  obtain ⟨r,rfl⟩ := h
  rw [List.take_append_of_le_length hk]

theorem take_of_stored (l m : List E) (k : ℕ) (hk : k ≤ l.length) (h : l.take k <+: m) :
    m.take k = l.take k := by
  have ht := List.prefix_iff_eq_take.mp h
  rw [List.length_take, min_eq_left hk] at ht
  exact ht.symm

theorem merge_contains (l m : List E) : m <+: merge l m := by
  unfold merge
  split_ifs with h
  · exact h
  · exact List.prefix_rfl

theorem merge_get (l m : List E) (k : ℕ) (e : E) (h : m[k]? = some e) :
    (merge l m)[k]? = some e := by
  obtain ⟨r,hr⟩ := merge_contains l m
  rw [← hr, List.getElem?_append_left (List.getElem?_eq_some_iff.mp h).1, h]

/-- A prefix of the log that also lies below the source of the merged
prefix survives the merge. -/
theorem merge_keeps (l m q t : List E) (hl : q <+: l) (hq : q <+: t) (hm : m <+: t) :
    q <+: merge l m := by
  unfold merge
  split_ifs with h
  · exact hl
  · rcases List.prefix_or_prefix_of_prefix hq hm with hqm | hmq
    · exact hqm
    · exact absurd (hmq.trans hl) h

theorem merge_cases (l m : List E) :
    m <+: l ∧ merge l m = l ∨ ¬ m <+: l ∧ merge l m = m := by
  unfold merge
  split_ifs with h
  · exact Or.inl ⟨h,rfl⟩
  · exact Or.inr ⟨h,rfl⟩

class Stamped (E : Type*) where
  stamp : E → ℕ

export Stamped (stamp)

variable [Stamped E]

def stampAt (l : List E) : ℕ → ℕ
  | 0 => 0
  | k+1 => (l[k]?.map stamp).getD 0

def lastStamp (l : List E) : ℕ := stampAt l l.length

/-- The comparison of two logs by their last stamp first and their length second. -/
def UpToDate (l m : List E) : Prop :=
  lastStamp m < lastStamp l ∨ lastStamp m = lastStamp l ∧ m.length ≤ l.length

theorem stamp_at_succ (l : List E) (k : ℕ) (e : E) (h : l[k]? = some e) :
    stampAt l (k+1) = stamp e := by
  simp [stampAt, h]

theorem getElem_stamp_at (l : List E) (k : ℕ) (hk : k < l.length) :
    ∃ e, l[k]? = some e ∧ stamp e = stampAt l (k+1) :=
  ⟨l[k],List.getElem?_eq_getElem hk,by simp [stampAt, hk]⟩

theorem stamp_at_take (l : List E) (j k : ℕ) (h : k ≤ j) :
    stampAt (l.take j) k = stampAt l k := by
  cases k with
  | zero => rfl
  | succ k => simp only [stampAt, List.getElem?_take, if_pos (show k < j by omega)]

theorem stamp_at_below (l m : List E) (k : ℕ) (h : l <+: m) (hk : k ≤ l.length) :
    stampAt l k = stampAt m k := by
  rw [← stamp_at_take l k k le_rfl, take_of_below l m k h hk, stamp_at_take m k k le_rfl]

end Mitdist.StampedLog
