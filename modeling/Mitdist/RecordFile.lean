import Mathlib.Data.List.Basic

/-!
# Files of records written at positions

A file is a list of cells. A writer keeps its own position, so a record written
behind the end of a file that was truncated in the meantime leaves cells that
were never written. A reader takes records up to the first such cell. Writers
of the same sequence of records agree on every cell.
-/

set_option autoImplicit false

namespace Mitdist.RecordFile

variable {α : Type*}

def writeAt : List (Option α) → ℕ → α → List (Option α)
  | [], 0, x => [some x]
  | [], n+1, x => none :: writeAt [] n x
  | _::cells, 0, x => some x :: cells
  | c::cells, n+1, x => c :: writeAt cells n x

def readAll : List (Option α) → List α
  | some x::cells => x :: readAll cells
  | none::_ => []
  | [] => []

/-- The file has the first `n` records of the sequence, and every other cell
that was written has its record of the sequence, too. -/
structure Written (full : List α) (n : ℕ) (cells : List (Option α)) : Prop where
  length_le : cells.length ≤ full.length
  agrees : ∀ (k : ℕ) (x : α), cells[k]? = some (some x) → full[k]? = some x
  covers : ∀ k < n, ∃ x, full[k]? = some x ∧ cells[k]? = some (some x)

theorem write_at_self (cells : List (Option α)) (n : ℕ) (x : α) :
    (writeAt cells n x)[n]? = some (some x) := by
  fun_induction writeAt cells n x with
  | case1 x => rfl
  | case2 n x ih => exact ih
  | case3 c cells x => rfl
  | case4 c cells n x ih => exact ih

theorem write_at_other (cells : List (Option α)) (n k : ℕ) (x y : α) (hk : k ≠ n) :
    (writeAt cells n x)[k]? = some (some y) ↔ cells[k]? = some (some y) := by
  fun_induction writeAt cells n x generalizing k with
  | case1 x =>
    cases k with
    | zero => exact absurd rfl hk
    | succ k => simp
  | case2 n x ih =>
    cases k with
    | zero => simp
    | succ k => simpa using ih k (by omega)
  | case3 c cells x =>
    cases k with
    | zero => exact absurd rfl hk
    | succ k => simp
  | case4 c cells n x ih =>
    cases k with
    | zero => simp
    | succ k => simpa using ih k (by omega)

theorem write_at_length (cells : List (Option α)) (n : ℕ) (x : α) :
    (writeAt cells n x).length = max cells.length (n+1) := by
  fun_induction writeAt cells n x with
  | case1 x => rfl
  | case2 n x ih => simp [ih]
  | case3 c cells x => simp
  | case4 c cells n x ih => simp [ih, Nat.add_max_add_right]

theorem written_empty (full : List α) : Written full 0 [] := by
  constructor
  · exact Nat.zero_le _
  · simp
  · intro k hk
    omega

theorem write_covers (full : List α) (cells : List (Option α)) (n m k : ℕ) (x : α)
    (hx : full[n]? = some x) (h : Written full m cells) (hk : k < m ∨ k = n) :
    ∃ y, full[k]? = some y ∧ (writeAt cells n x)[k]? = some (some y) := by
  by_cases hkn : k = n
  · subst hkn
    exact ⟨x,hx,write_at_self cells k x⟩
  · obtain ⟨y,hy,hc⟩ := h.covers k (by omega)
    exact ⟨y,hy,(write_at_other cells n k x y hkn).mpr hc⟩

/-- Writing a record of the sequence where it belongs loses nothing. -/
theorem written_write (full : List α) (cells : List (Option α)) (n m : ℕ) (x : α)
    (hx : full[n]? = some x) (h : Written full m cells) :
    Written full m (writeAt cells n x) := by
  have hn := (List.getElem?_eq_some_iff.mp hx).1
  constructor
  · rw [write_at_length]
    exact Nat.max_le.mpr ⟨h.length_le,hn⟩
  · intro k y hk
    by_cases hkn : k = n
    · subst hkn
      rw [write_at_self] at hk
      rw [hx, Option.some.inj hk]
    · exact h.agrees k y ((write_at_other cells n k x y hkn).mp hk)
  · intro k hk
    exact write_covers full cells n m k x hx h (.inl hk)

theorem written_next (full : List α) (cells : List (Option α)) (n : ℕ) (x : α)
    (hx : full[n]? = some x) (h : Written full n cells) :
    Written full (n+1) (writeAt cells n x) := by
  have hw := written_write full cells n n x hx h
  constructor
  · exact hw.length_le
  · exact hw.agrees
  · intro k hk
    exact write_covers full cells n n k x hx h (by omega)

/-- A file that has all records of the sequence reads as the sequence. -/
theorem read_all_written (full : List α) (cells : List (Option α))
    (h : Written full full.length cells) : readAll cells = full := by
  induction full generalizing cells with
  | nil =>
    have hnil : cells = [] := List.length_eq_zero_iff.mp (Nat.le_zero.mp h.length_le)
    rw [hnil, readAll]
  | cons x full ih =>
    obtain ⟨y,hy,hcy⟩ := h.covers 0 (Nat.zero_lt_succ _)
    cases cells with
    | nil => simp at hcy
    | cons c cells =>
      have hxy : x = y := by simpa using hy
      have hcx : c = some x := by simpa [hxy] using hcy
      rw [hcx, readAll, ih cells]
      constructor
      · exact Nat.le_of_succ_le_succ h.length_le
      · intro k z hz
        exact h.agrees (k+1) z hz
      · intro k hk
        exact h.covers (k+1) (Nat.succ_lt_succ hk)

end Mitdist.RecordFile
