import Mathlib.Data.Finset.Range
import Mathlib.Data.Finset.Basic
import Mathlib.Data.List.Basic

/-!
# The bitset of the checker

A set of positions in words of 64 bits. An access to a word that a bitset does
not have is a fault. Bitsets are values here, so a clone is the bitset itself.
-/

set_option autoImplicit false

namespace Mitdist.CheckerBitset

abbrev Bitset := List (BitVec 64)

def newBitset (bits : ℕ) : Bitset :=
  let extra := if bits%64 ≠ 0 then 1 else 0
  let chunks := bits/64+extra
  List.replicate chunks 0

def bitsetIndex (pos : ℕ) : ℕ × ℕ := (pos/64, pos%64)

def set (b : Bitset) (pos : ℕ) : Option Bitset := do
  let (major, minor) := bitsetIndex pos
  let word ← b[major]?
  return b.set major (word ||| (1#64 <<< minor))

def clear (b : Bitset) (pos : ℕ) : Option Bitset := do
  let (major, minor) := bitsetIndex pos
  let word ← b[major]?
  return b.set major (word &&& ~~~(1#64 <<< minor))

def get (b : Bitset) (pos : ℕ) : Option Bool := do
  let (major, minor) := bitsetIndex pos
  let word ← b[major]?
  return word &&& (1#64 <<< minor) ≠ 0

def popcnt (b : Bitset) : ℕ := b.foldl (fun total v => total + v.cpop.toNat) 0

def hash (b : Bitset) : BitVec 64 := b.foldl (fun hash v => hash ^^^ v) (BitVec.ofNat 64 (popcnt b))

def equals (b b2 : Bitset) : Bool :=
  if b.length ≠ b2.length then false else (b.zip b2).all (fun x => x.1 = x.2)

theorem equals_iff (b b2 : Bitset) : equals b b2 = true ↔ b = b2 := by
  induction b generalizing b2 with
  | nil => cases b2 <;> simp [equals]
  | cons v b ih =>
    cases b2 with
    | nil => simp [equals]
    | cons w b2 =>
      have := ih b2
      simp only [equals, List.length_cons, ne_eq, Nat.add_right_cancel_iff] at this ⊢
      split_ifs with hlen <;> simp only [hlen] at this <;> simp [← this]

theorem get_bit {b : Bitset} {pos : ℕ} {word : BitVec 64} (h : b[pos/64]? = some word) :
    get b pos = some (word.getLsbD (pos%64)) := by
  have hlt : pos%64 < 64 := Nat.mod_lt _ (by omega)
  have hand : word &&& 1#64 <<< (pos%64) = if word.getLsbD (pos%64) then BitVec.twoPow 64 (pos%64)
      else 0#64 := by
    rw [← BitVec.twoPow_eq, BitVec.and_twoPow]
  have hne : BitVec.twoPow 64 (pos%64) ≠ 0#64 := by
    intro hzero
    have := congrArg (fun v => v.getLsbD (pos%64)) hzero
    simp [hlt] at this
  simp only [get, bitsetIndex, h, hand, Option.bind_eq_bind, Option.bind_some, Option.pure_def]
  cases word.getLsbD (pos%64) <;> simp [hne]

/-- The bitset has exactly the positions of the set among those of its words. -/
def Holds (b : Bitset) (s : Finset ℕ) : Prop :=
  ∀ pos < 64*b.length, get b pos = some (decide (pos ∈ s))

theorem word_exists {b : Bitset} {pos : ℕ} (h : pos < 64*b.length) :
    ∃ word, b[pos/64]? = some word :=
  ⟨b[pos/64],List.getElem?_eq_getElem (by omega)⟩

theorem new_holds (bits : ℕ) : Holds (newBitset bits) ∅ := by
  intro pos hpos
  obtain ⟨word,hword⟩ := word_exists hpos
  have hzero : word = 0#64 := List.eq_of_mem_replicate (List.mem_of_getElem? hword)
  simp [get_bit hword, hzero]

theorem new_length (bits : ℕ) : bits ≤ 64*(newBitset bits).length := by
  simp only [newBitset, List.length_replicate]
  split_ifs <;> omega

/-- A word that differs in one bit changes the set in one position. -/
theorem store_holds {b : Bitset} {s t : Finset ℕ} (h : Holds b s) {pos : ℕ} {word word' : BitVec 64}
    (hword : b[pos/64]? = some word)
    (hbits : ∀ k < 64, word'.getLsbD k = if k = pos%64 then decide (pos ∈ t) else word.getLsbD k)
    (ht : ∀ q, q ≠ pos → (q ∈ t ↔ q ∈ s)) : Holds (b.set (pos/64) word') t := by
  intro q hq
  rw [List.length_set] at hq
  by_cases hmajor : q/64 = pos/64
  · have hset : (b.set (pos/64) word')[q/64]? = some word' := by
      rw [hmajor, List.getElem?_set_self (List.getElem?_eq_some_iff.mp hword).1]
    rw [get_bit hset, hbits _ (Nat.mod_lt _ (by omega))]
    split_ifs with hminor
    · obtain rfl : q = pos := by omega
      rfl
    · have hold := h q hq
      rw [get_bit (hmajor ▸ hword)] at hold
      rw [hold]
      simp only [Option.some.injEq, decide_eq_decide]
      exact (ht q (by rintro rfl; exact hminor rfl)).symm
  · obtain ⟨w,hw⟩ := word_exists hq
    have hset : (b.set (pos/64) word')[q/64]? = some w := by
      rw [List.getElem?_set_ne (Ne.symm hmajor), hw]
    have hold := h q hq
    rw [get_bit hw] at hold
    rw [get_bit hset, hold]
    simp only [Option.some.injEq, decide_eq_decide]
    exact (ht q (by rintro rfl; exact hmajor rfl)).symm

theorem set_holds {b : Bitset} {s : Finset ℕ} (h : Holds b s) {pos : ℕ} (hpos : pos < 64*b.length) :
    ∃ b', set b pos = some b' ∧ b'.length = b.length ∧ Holds b' (insert pos s) := by
  obtain ⟨word,hword⟩ := word_exists hpos
  refine ⟨b.set (pos/64) (word ||| (1#64 <<< (pos%64))),by simp [set, bitsetIndex, hword],by simp,
    store_holds h hword (fun k hk => ?_) (fun q hq => by simp [hq])⟩
  rw [← BitVec.twoPow_eq]
  by_cases hkp : k = pos%64
  · subst hkp
    simp [hk]
  · simp [hkp, Ne.symm hkp]

theorem clear_holds {b : Bitset} {s : Finset ℕ} (h : Holds b s) {pos : ℕ}
    (hpos : pos < 64*b.length) :
    ∃ b', clear b pos = some b' ∧ b'.length = b.length ∧ Holds b' (s.erase pos) := by
  obtain ⟨word,hword⟩ := word_exists hpos
  refine ⟨b.set (pos/64) (word &&& ~~~(1#64 <<< (pos%64))),by simp [clear, bitsetIndex, hword],
    by simp,store_holds h hword (fun k hk => ?_) (fun q hq => by simp [hq])⟩
  rw [← BitVec.twoPow_eq]
  by_cases hkp : k = pos%64
  · subst hkp
    simp [hk]
  · simp [hk, hkp]

theorem holds_unique {b : Bitset} {s t : Finset ℕ} {n : ℕ} (hs : Holds b s) (ht : Holds b t)
    (hn : n ≤ 64*b.length) (hsn : s ⊆ Finset.range n) (htn : t ⊆ Finset.range n) : s = t := by
  ext pos
  by_cases hpos : pos < n
  · have := (hs pos (by omega)).symm.trans (ht pos (by omega))
    simpa using this
  · have hs' : pos ∉ s := fun hin => hpos (Finset.mem_range.mp (hsn hin))
    have ht' : pos ∉ t := fun hin => hpos (Finset.mem_range.mp (htn hin))
    simp [hs', ht']

end Mitdist.CheckerBitset
