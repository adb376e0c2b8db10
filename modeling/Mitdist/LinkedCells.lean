import Mathlib.Data.List.Basic
import Mathlib.Data.List.Nodup

/-!
# Doubly linked cells

Cells are at the addresses of a heap and point to their neighbours. A cell that
is unlinked keeps its own pointers, so it can be linked in again where it was.
An access to an address without a cell has no result.
-/

set_option autoImplicit false

namespace Mitdist.LinkedCells

structure Cell (α : Type) where
  content : α
  next : Option ℕ := none
  prev : Option ℕ := none
  deriving DecidableEq, Repr

abbrev Heap (α : Type) := List (Cell α)

variable {α : Type}

def setNext (h : Heap α) (a : ℕ) (p : Option ℕ) : Option (Heap α) := do
  let c ← h[a]?
  return h.set a { c with next := p }

def setPrev (h : Heap α) (a : ℕ) (p : Option ℕ) : Option (Heap α) := do
  let c ← h[a]?
  return h.set a { c with prev := p }

def unlink (h : Heap α) (a : ℕ) : Option (Heap α) := do
  let c ← h[a]?
  let p ← c.prev
  let h ← setNext h p c.next
  let c ← h[a]?
  match c.next with
  | none => return h
  | some q => setPrev h q c.prev

def relink (h : Heap α) (a : ℕ) : Option (Heap α) := do
  let c ← h[a]?
  let p ← c.prev
  let h ← setNext h p (some a)
  let c ← h[a]?
  match c.next with
  | none => return h
  | some q => setPrev h q (some a)

/-- The cells at the addresses point to each other, the first one back to `p`
and the last one on to `q`. -/
def Segment (h : Heap α) : Option ℕ → List ℕ → Option ℕ → Prop
  | _, [], _ => True
  | p, a::l, q => (∃ c, h[a]? = some c ∧ c.prev = p ∧ c.next = l.head?.or q) ∧
      Segment h (some a) l q

structure Linked (h : Heap α) (l : List ℕ) : Prop where
  nodup : l.Nodup
  cells : Segment h none l none

theorem segment_append (h : Heap α) (p q : Option ℕ) (l₁ l₂ : List ℕ) :
    Segment h p (l₁++l₂) q ↔
      Segment h p l₁ (l₂.head?.or q) ∧ Segment h (l₁.getLast?.or p) l₂ q := by
  induction l₁ generalizing p with
  | nil => simp [Segment]
  | cons a l₁ ih =>
    have hlast : ((a::l₁).getLast?).or p = l₁.getLast?.or (some a) := by
      rw [List.getLast?_cons]
      cases l₁.getLast? <;> rfl
    simp only [List.cons_append, Segment, ih, hlast, List.head?_append, Option.or_assoc, and_assoc]

theorem segment_frame {h h' : Heap α} {p q : Option ℕ} {l : List ℕ}
    (hf : ∀ a ∈ l, h'[a]? = h[a]?) (hs : Segment h p l q) : Segment h' p l q := by
  induction l generalizing p with
  | nil => trivial
  | cons a l ih =>
    obtain ⟨⟨c,hc,hrest⟩,hs⟩ := hs
    exact ⟨⟨c,(hf a List.mem_cons_self).trans hc,hrest⟩,
      ih (fun b hb => hf b (List.mem_cons_of_mem _ hb)) hs⟩

theorem linked_cell {h : Heap α} {l₁ l₂ : List ℕ} {a : ℕ} (hl : Linked h (l₁ ++ a::l₂)) :
    ∃ c, h[a]? = some c ∧ c.prev = l₁.getLast? ∧ c.next = l₂.head? := by
  obtain ⟨-,⟨c,hc,hprev,hnext⟩,-⟩ := (segment_append h none none l₁ (a::l₂)).mp hl.cells
  rw [Option.or_none] at hprev hnext
  exact ⟨c,hc,hprev,hnext⟩

def contents (h : Heap α) : List α := h.map Cell.content

theorem contents_get (h : Heap α) (a : ℕ) (x : α) :
    (contents h)[a]? = some x ↔ ∃ c, h[a]? = some c ∧ c.content = x := by
  simp [contents]

theorem set_next_eq {h : Heap α} {a : ℕ} {c : Cell α} (hc : h[a]? = some c) (p : Option ℕ) :
    setNext h a p = some (h.set a { c with next := p }) := by
  simp [setNext, hc]

theorem set_prev_eq {h : Heap α} {a : ℕ} {c : Cell α} (hc : h[a]? = some c) (p : Option ℕ) :
    setPrev h a p = some (h.set a { c with prev := p }) := by
  simp [setPrev, hc]

theorem get_set_same {h : Heap α} {a : ℕ} {c : Cell α} (hc : h[a]? = some c) (c' : Cell α) :
    (h.set a c')[a]? = some c' := by
  obtain ⟨hlt,-⟩ := List.getElem?_eq_some_iff.mp hc
  simp [hlt]

theorem set_same {h : Heap α} {a : ℕ} {c : Cell α} (hc : h[a]? = some c) : h.set a c = h := by
  obtain ⟨hlt,rfl⟩ := List.getElem?_eq_some_iff.mp hc
  exact List.set_getElem_self hlt

theorem contents_set {h : Heap α} {a : ℕ} {c c' : Cell α} (hc : h[a]? = some c)
    (hcc : c'.content = c.content) : contents (h.set a c') = contents h := by
  obtain ⟨hlt,rfl⟩ := List.getElem?_eq_some_iff.mp hc
  rw [contents, List.map_set, hcc, ← List.map_set, List.set_getElem_self, contents]

theorem contents_set_next {h : Heap α} {a : ℕ} {c : Cell α} (hc : h[a]? = some c) (p : Option ℕ) :
    contents (h.set a { c with next := p }) = contents h := contents_set hc rfl

theorem contents_set_prev {h : Heap α} {a : ℕ} {c : Cell α} (hc : h[a]? = some c) (p : Option ℕ) :
    contents (h.set a { c with prev := p }) = contents h := contents_set hc rfl

/-- A cell after the first can be taken out of the list, and put back. -/
theorem unlink_linked {h : Heap α} {l₁ l₂ : List ℕ} {a : ℕ} (hl : Linked h (l₁ ++ a::l₂))
    (hne : l₁ ≠ []) :
    ∃ h', unlink h a = some h' ∧ Linked h' (l₁ ++ l₂) ∧ contents h' = contents h ∧
      h'[a]? = h[a]? ∧ relink h' a = some h := by
  obtain ⟨k,p,rfl⟩ := List.eq_nil_or_concat' l₁ |>.resolve_left hne
  have hnodup := hl.nodup
  have hseg := hl.cells
  rw [List.append_assoc, segment_append] at hseg
  obtain ⟨hk,⟨cp,hcp,hpprev,hpnext⟩,⟨c,hc,hprev,hnext⟩,hrest⟩ := hseg
  have hpa : p ≠ a := by grind
  have hkp : ∀ b ∈ k, p ≠ b := by grind
  have hsub : (k ++ [p] ++ l₂).Nodup := hnodup.sublist (by simp)
  have hpnext : cp.next = some a := hpnext
  rw [Option.or_none] at hnext
  have hcp' : { cp with next := some a } = cp := by rw [← hpnext]
  cases l₂ with
  | nil =>
    have hnext : c.next = none := hnext
    have ha : (h.set p { cp with next := none })[a]? = some c := by
      rw [List.getElem?_set_ne hpa, hc]
    refine ⟨h.set p { cp with next := none },?_,⟨hsub,?_⟩,contents_set_next hcp _,
      ha.trans hc.symm,?_⟩
    · simp only [unlink, hc, hprev, hnext, set_next_eq hcp, ha, Option.bind_eq_bind,
        Option.bind_some, Option.pure_def]
    · rw [List.append_nil, segment_append]
      exact ⟨segment_frame (fun b hb => List.getElem?_set_ne (hkp b hb)) hk,
        ⟨_,get_set_same hcp _,hpprev,rfl⟩,trivial⟩
    · simp only [relink, ha, hprev, hnext, set_next_eq (get_set_same hcp _), hcp', List.set_set,
        set_same hcp, hc, Option.bind_eq_bind, Option.bind_some, Option.pure_def]
  | cons q l₃ =>
    have hnext : c.next = some q := hnext
    obtain ⟨⟨cq,hcq,hqprev,hqnext⟩,hl₃⟩ := hrest
    have hpq : p ≠ q := by grind
    have hqa : q ≠ a := by grind
    have hkq : ∀ b ∈ k, q ≠ b := by grind
    have hpl : ∀ b ∈ l₃, p ≠ b := by grind
    have hql : ∀ b ∈ l₃, q ≠ b := by grind
    have hcq' : { cq with prev := some a } = cq := by rw [← hqprev]
    have ha₁ : (h.set p { cp with next := some q })[a]? = some c := by
      rw [List.getElem?_set_ne hpa, hc]
    have hq : (h.set p { cp with next := some q })[q]? = some cq := by
      rw [List.getElem?_set_ne hpq, hcq]
    have ha : ((h.set p { cp with next := some q }).set q { cq with prev := some p })[a]? =
        some c := by
      rw [List.getElem?_set_ne hqa, ha₁]
    have hp : ((h.set p { cp with next := some q }).set q { cq with prev := some p })[p]? =
        some { cp with next := some q } := by
      rw [List.getElem?_set_ne hpq.symm, get_set_same hcp]
    refine ⟨(h.set p { cp with next := some q }).set q { cq with prev := some p },?_,⟨hsub,?_⟩,?_,
      ha.trans hc.symm,?_⟩
    · simp only [unlink, hc, hprev, hnext, set_next_eq hcp, ha₁, set_prev_eq hq,
        Option.bind_eq_bind, Option.bind_some]
    · rw [List.append_assoc, segment_append]
      refine ⟨segment_frame (fun b hb => ?_) hk,⟨_,hp,hpprev,rfl⟩,⟨_,get_set_same hq _,rfl,hqnext⟩,
        segment_frame (fun b hb => ?_) hl₃⟩
      · rw [List.getElem?_set_ne (hkq b hb), List.getElem?_set_ne (hkp b hb)]
      · rw [List.getElem?_set_ne (hql b hb), List.getElem?_set_ne (hpl b hb)]
    · rw [contents_set_prev hq, contents_set_next hcp]
    · have ha₂ : (((h.set p { cp with next := some q }).set q { cq with prev := some p }).set p
          cp)[a]? = some c := by
        rw [List.getElem?_set_ne hpa, ha]
      have hq' : (((h.set p { cp with next := some q }).set q { cq with prev := some p }).set p
          cp)[q]? = some { cq with prev := some p } := by
        rw [List.getElem?_set_ne hpq, get_set_same hq]
      simp only [relink, ha, hprev, hnext, set_next_eq hp, hcp', ha₂, set_prev_eq hq', hcq',
        Option.bind_eq_bind, Option.bind_some]
      rw [List.set_comm _ _ hpq, List.set_set, List.set_comm _ _ hpq, List.set_set, set_same hcq,
        set_same hcp]

theorem linked_bound {h : Heap α} {l : List ℕ} {p q : Option ℕ} (hs : Segment h p l q) :
    ∀ a ∈ l, a < h.length := by
  induction l generalizing p with
  | nil => simp
  | cons a l ih =>
    obtain ⟨⟨c,hc,-⟩,hs⟩ := hs
    intro b hb
    rcases List.mem_cons.mp hb with rfl | hb
    · exact (List.getElem?_eq_some_iff.mp hc).1
    · exact ih hs b hb

end Mitdist.LinkedCells
