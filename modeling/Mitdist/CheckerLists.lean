import Mitdist.Checker
import Mitdist.IntervalHistory

/-!
# The lists of the checker

`makeLinkedEntries` lays the entries of a history out in nodes and points each
call to its return. The nodes of operations that are not yet linearized are
linked in the order of the history. Lifting a call takes it and its return out
of this list, and `unlift` brings exactly the list before back.
-/

set_option autoImplicit false

namespace Mitdist.CheckerLists
open Mitdist.LinkedCells Mitdist.Checker Mitdist.IntervalHistory
open scoped List

variable {S I O : Type}

theorem length_from_linked {h : Nodes I O} {l : List ℕ} {p : Option ℕ}
    (hs : Segment h p l none) (fuel : ℕ) (hf : l.length ≤ fuel) :
    lengthFrom h fuel l.head? = some l.length := by
  induction l generalizing p fuel with
  | nil => cases fuel <;> rfl
  | cons a l ih =>
    obtain ⟨⟨c,hc,-,hnext⟩,hs⟩ := hs
    obtain ⟨fuel,rfl⟩ : ∃ k, fuel = k+1 := ⟨fuel-1,by simp at hf; omega⟩
    rw [Option.or_none] at hnext
    simp [lengthFrom, hc, hnext, ih hs fuel (by simpa using hf)]

/-- A new node is inserted before the first one. -/
theorem insert_before_linked {h : Nodes I O} {l : List ℕ} (hl : Linked h l) (x : Content I O) :
    ∃ h', insertBefore (h ++ [{ content := x }]) h.length l.head? = some h' ∧
      Linked h' (h.length::l) ∧ contents h' = contents h ++ [x] := by
  have hlt := linked_bound hl.cells
  have hfresh : (h ++ [({ content := x } : Cell (Content I O))])[h.length]? =
      some { content := x } := by simp
  have hnodup : (h.length::l).Nodup :=
    List.nodup_cons.mpr ⟨fun hin => absurd (hlt _ hin) (by omega),hl.nodup⟩
  cases l with
  | nil => exact ⟨_,rfl,⟨hnodup,⟨_,hfresh,rfl,rfl⟩,trivial⟩,by simp [contents]⟩
  | cons m l =>
    obtain ⟨⟨c,hc,hprev,hnext⟩,hs⟩ := hl.cells
    have hm := hlt m List.mem_cons_self
    have hml : ∀ b ∈ l, m ≠ b := by have := hl.nodup; grind
    have hcm : (h ++ [({ content := x } : Cell (Content I O))])[m]? = some c := by
      rw [List.getElem?_append_left hm, hc]
    have hn : ((h ++ [({ content := x } : Cell (Content I O))]).set m
        { c with prev := some h.length })[h.length]? = some { content := x } := by
      rw [List.getElem?_set_ne (by omega), hfresh]
    refine ⟨((h ++ [({ content := x } : Cell (Content I O))]).set m
        { c with prev := some h.length }).set h.length { content := x, next := some m },
      by simp [insertBefore, hcm, hprev, set_prev_eq hcm, set_next_eq hn],
      ⟨hnodup,⟨{ content := x, next := some m },get_set_same hn _,rfl,rfl⟩,
        ⟨{ c with prev := some h.length },?_,rfl,hnext⟩,segment_frame (fun b hb => ?_) hs⟩,?_⟩
    · rw [List.getElem?_set_ne (by omega), get_set_same hcm]
    · have hb' := hlt b (List.mem_cons_of_mem _ hb)
      rw [List.getElem?_set_ne (by omega), List.getElem?_set_ne (hml b hb),
        List.getElem?_append_left hb']
    · rw [contents_set_next hn, contents_set_prev hcm]
      simp [contents]

def mark (e : Entry I O) : Mark ℕ :=
  match e.kind with
  | .callEntry => .call e.id
  | .returnEntry => .ret e.id

/-- The entries with the addresses of their nodes. -/
def placed : List (Entry I O) → List (ℕ × Entry I O)
  | [] => []
  | e::entries => (entries.length,e) :: placed entries

def marks (P : List (ℕ × Entry I O)) : List (Mark ℕ) := P.map (fun x => mark x.2)

def mateIn : List (Entry I O) → ℕ → Option ℕ
  | [], _ => none
  | e::entries, i => if e.kind = .returnEntry ∧ e.id = i then some entries.length
      else mateIn entries i

def contentsOf : List (Entry I O) → List (Content I O)
  | [] => []
  | e::entries => contentsOf entries ++
      [⟨e.value,if e.kind = .returnEntry then none else mateIn entries e.id,e.id⟩]

theorem contents_of_length (entries : List (Entry I O)) :
    (contentsOf entries).length = entries.length := by
  induction entries with
  | nil => rfl
  | cons e entries ih => simp [contentsOf, ih]

theorem marks_placed (entries : List (Entry I O)) : marks (placed entries) = entries.map mark := by
  induction entries with
  | nil => rfl
  | cons e entries ih => simpa [placed, marks] using ih

theorem placed_length (entries : List (Entry I O)) : (placed entries).length = entries.length := by
  induction entries with
  | nil => rfl
  | cons e entries ih => simp [placed, ih]

theorem make_linked (entries : List (Entry I O)) :
    ∃ l, makeLinkedEntries entries = some l ∧ Linked l.heap ((placed entries).map Prod.fst) ∧
      l.root = ((placed entries).map Prod.fst).head? ∧ contents l.heap = contentsOf entries ∧
      l.mates = mateIn entries := by
  induction entries with
  | nil => exact ⟨_,rfl,⟨List.nodup_nil,trivial⟩,rfl,rfl,rfl⟩
  | cons e entries ih =>
    obtain ⟨l,hl,hlinked,hroot,hcontents,hmates⟩ := ih
    have hlen : l.heap.length = entries.length := by
      rw [← contents_of_length, ← hcontents, contents, List.length_map]
    have hcase : ∀ x : Content I O, ∃ h',
        insertBefore (l.heap ++ [{ content := x }]) l.heap.length l.root = some h' ∧
        Linked h' ((placed (e::entries)).map Prod.fst) ∧
        contents h' = contentsOf entries ++ [x] := by
      intro x
      obtain ⟨h',hins,hlink,hcont⟩ := insert_before_linked hlinked x
      rw [hcontents] at hcont
      refine ⟨h',hroot ▸ hins,?_,hcont⟩
      simpa [placed, hlen] using hlink
    cases hk : e.kind with
    | callEntry =>
      obtain ⟨h',hins,hlink,hcont⟩ := hcase ⟨e.value,l.mates e.id,e.id⟩
      refine ⟨⟨h',some l.heap.length,l.mates⟩,?_,hlink,by simp [placed, hlen],?_,?_⟩
      · simp [makeLinkedEntries, hl, linkEntry, hk, hins]
      · simp [contentsOf, hcont, hk, hmates]
      · funext i
        simp [mateIn, hk, hmates]
    | returnEntry =>
      obtain ⟨h',hins,hlink,hcont⟩ := hcase ⟨e.value,none,e.id⟩
      refine ⟨⟨h',some l.heap.length,Function.update l.mates e.id (some l.heap.length)⟩,?_,hlink,
        by simp [placed, hlen],?_,?_⟩
      · simp [makeLinkedEntries, hl, linkEntry, hk, hins]
      · simp [contentsOf, hcont, hk]
      · funext i
        simp only [mateIn, hk, hmates, hlen, Function.update_apply, true_and, eq_comm]

theorem placed_bound (entries : List (Entry I O)) {x : ℕ × Entry I O} (hx : x ∈ placed entries) :
    x.1 < entries.length := by
  induction entries with
  | nil => simp [placed] at hx
  | cons e entries ih =>
    rcases List.mem_cons.mp hx with rfl | hx
    · simp
    · exact (ih hx).trans (by simp)

theorem contents_placed {entries : List (Entry I O)} {a : ℕ} {e : Entry I O}
    (h : (a,e) ∈ placed entries) :
    ∃ before rest, entries = before ++ e::rest ∧ (contentsOf entries)[a]? =
      some ⟨e.value,if e.kind = .returnEntry then none else mateIn rest e.id,e.id⟩ := by
  induction entries with
  | nil => simp [placed] at h
  | cons f entries ih =>
    rcases List.mem_cons.mp h with heq | h
    · obtain ⟨rfl,rfl⟩ := Prod.mk.inj heq
      exact ⟨[],entries,rfl,by simp [contentsOf, ← contents_of_length entries]⟩
    · obtain ⟨before,rest,rfl,hget⟩ := ih h
      refine ⟨f::before,rest,rfl,?_⟩
      rw [contentsOf, List.getElem?_append_left, hget]
      rw [contents_of_length]
      exact placed_bound _ h

theorem mark_returns {e : Entry I O} {i : ℕ} (h : mark e = .ret i) :
    e.kind = .returnEntry ∧ e.id = i := by
  cases hk : e.kind with
  | callEntry => simp [mark, hk] at h
  | returnEntry => exact ⟨rfl,by simpa [mark, hk] using h⟩

theorem mate_found {entries : List (Entry I O)} {i : ℕ} (h : .ret i ∈ entries.map mark) :
    ∃ b r, (b,r) ∈ placed entries ∧ r.kind = .returnEntry ∧ r.id = i ∧
      mateIn entries i = some b := by
  induction entries with
  | nil => simp at h
  | cons e entries ih =>
    by_cases he : e.kind = .returnEntry ∧ e.id = i
    · exact ⟨entries.length,e,by simp [placed],he.1,he.2,by simp [mateIn, he]⟩
    · have hne : mark e ≠ .ret i := fun hm => he (mark_returns hm)
      obtain ⟨b,r,hin,hrk,hri,hmate⟩ := ih (by simpa [hne.symm] using h)
      exact ⟨b,r,List.mem_cons_of_mem _ hin,hrk,hri,by simp only [mateIn, if_neg he, hmate]⟩

theorem mark_call {e : Entry I O} (h : e.kind = .callEntry) : mark e = .call e.id := by
  simp [mark, h]

theorem mark_return {e : Entry I O} (h : e.kind = .returnEntry) : mark e = .ret e.id := by
  simp [mark, h]

theorem mark_op (e : Entry I O) : (mark e).op = e.id := by
  cases hk : e.kind <;> simp [mark, hk, Mark.op]

theorem placed_suffix (before rest : List (Entry I O)) :
    placed rest ⊆ placed (before ++ rest) := by
  induction before with
  | nil => exact fun _ h => h
  | cons e before ih => exact fun x hx => List.mem_cons_of_mem _ (ih hx)

/-- The entries are a complete history: they have one call with an input and
after it one return with an output for each id below half of their number. -/
structure History (entries : List (Entry I O)) : Prop where
  wellFormed : WellFormed (entries.map mark)
  ids : ∀ e ∈ entries, e.id < entries.length/2
  called : ∀ i < entries.length/2, .call i ∈ entries.map mark
  inputs : ∀ e ∈ entries, e.kind = .callEntry → (asInput e.value).isSome
  outputs : ∀ e ∈ entries, e.kind = .returnEntry → (asOutput e.value).isSome

/-- A call is laid out with the address of its return. -/
theorem contents_call {entries : List (Entry I O)} (hw : WellFormed (entries.map mark)) {a : ℕ}
    {e : Entry I O} (h : (a,e) ∈ placed entries) (hk : e.kind = .callEntry) :
    ∃ b r, (b,r) ∈ placed entries ∧ r.kind = .returnEntry ∧ r.id = e.id ∧
      (contentsOf entries)[a]? = some ⟨e.value,some b,e.id⟩ := by
  obtain ⟨before,rest,rfl,hget⟩ := contents_placed h
  rw [List.map_append, List.map_cons, mark_call hk] at hw
  obtain ⟨b,r,hin,hrk,hri,hmate⟩ := mate_found (returns_after hw)
  refine ⟨b,r,?_,hrk,hri,by simpa [hk, hmate] using hget⟩
  exact placed_suffix before (e::rest) (List.mem_cons_of_mem _ hin)

theorem contents_return {entries : List (Entry I O)} {a : ℕ} {e : Entry I O}
    (h : (a,e) ∈ placed entries) (hk : e.kind = .returnEntry) :
    (contentsOf entries)[a]? = some ⟨e.value,none,e.id⟩ := by
  obtain ⟨before,rest,-,hget⟩ := contents_placed h
  simpa [hk] using hget

/-- The entries of the operations that are not done. -/
def left (P : List (ℕ × Entry I O)) (done : Finset ℕ) : List (ℕ × Entry I O) :=
  P.filter (fun x => x.2.id ∉ done)

theorem marks_left (P : List (ℕ × Entry I O)) (done : Finset ℕ) :
    marks (left P done) = pending (marks P) done := by
  rw [marks, left, marks, pending, List.filter_map]
  simp [Function.comp_def, mark_op]

theorem left_empty (P : List (ℕ × Entry I O)) : left P ∅ = P := by
  simp [left]

theorem left_insert (P : List (ℕ × Entry I O)) (done : Finset ℕ) (i : ℕ) :
    left P (insert i done) = (left P done).filter (fun x => x.2.id ≠ i) := by
  simp only [left, List.filter_filter, Finset.mem_insert, not_or, Bool.decide_and, decide_not]

/-- The return of a call that is left comes after it, and without the two the
entries are those that are left when the operation is done. -/
theorem left_split {P P₁ Q : List (ℕ × Entry I O)} {done : Finset ℕ} {a : ℕ} {e : Entry I O}
    (hw : WellFormed (marks P)) (hk : e.kind = .callEntry) (h : left P done = P₁ ++ (a,e)::Q) :
    ∃ P₂ b r P₃, Q = P₂ ++ (b,r)::P₃ ∧ r.kind = .returnEntry ∧ r.id = e.id ∧
      left P (insert e.id done) = P₁ ++ P₂ ++ P₃ := by
  have hleft := pending_well_formed hw done
  rw [← marks_left, h] at hleft
  have hsplit : marks (P₁ ++ (a,e)::Q) = marks P₁ ++ .call e.id::marks Q := by
    simp [marks, mark_call hk]
  rw [hsplit] at hleft
  obtain ⟨⟨b,r⟩,hin,hr⟩ := List.mem_map.mp (returns_after hleft)
  have hrk : r.kind = .returnEntry ∧ r.id = e.id := mark_returns hr
  obtain ⟨P₂,P₃,rfl⟩ := List.append_of_mem hin
  refine ⟨P₂,b,r,P₃,rfl,hrk.1,hrk.2,?_⟩
  have hnodup := hleft.nodup
  have hmid : marks (P₂ ++ (b,r)::P₃) = marks P₂ ++ .ret e.id::marks P₃ := by
    simp [marks, mark_return hrk.1, hrk.2]
  rw [hmid] at hnodup
  have hother : ∀ x ∈ P₁ ++ P₂ ++ P₃, x.2.id ≠ e.id := by
    intro x hx hid
    have hm : mark x.2 ∈ marks P₁ ++ marks P₂ ++ marks P₃ := by
      simp only [marks, ← List.map_append]
      exact List.mem_map.mpr ⟨x,hx,rfl⟩
    have hcases : mark x.2 = .call e.id ∨ mark x.2 = .ret e.id := by
      cases hx' : x.2.kind <;> simp [mark, hx', hid]
    grind
  have hkeep : ∀ L : List (ℕ × Entry I O), L ⊆ P₁ ++ P₂ ++ P₃ →
      L.filter (fun x => x.2.id ≠ e.id) = L :=
    fun L hL => List.filter_eq_self.mpr (fun x hx => decide_eq_true (hother x (hL hx)))
  rw [left_insert, h, List.filter_append, List.filter_cons_of_neg (by simp), List.filter_append,
    List.filter_cons_of_neg (by simp [hrk.2]), hkeep P₁ (by simp), hkeep P₂ (by simp),
    hkeep P₃ (by simp), List.append_assoc]

theorem lift_unlinks (h : Nodes I O) (a : ℕ) :
    lift h a = (do
      let e ← h[a]?
      let prev ← e.prev
      let h ← setNext h prev e.next
      let e ← h[a]?
      let next ← e.next
      let h ← setPrev h next e.prev
      let e ← h[a]?
      let mate ← e.content.mate
      unlink h mate) := rfl

theorem unlift_relinks (h : Nodes I O) (a : ℕ) :
    unlift h a = (do
      let e ← h[a]?
      let mate ← e.content.mate
      let h ← relink h mate
      let e ← h[a]?
      let prev ← e.prev
      let h ← setNext h prev (some a)
      let e ← h[a]?
      let next ← e.next
      setPrev h next (some a)) := by
  simp only [unlift, relink, bind_assoc]
  refine bind_congr fun e => bind_congr fun mate => bind_congr fun m => bind_congr fun p =>
    bind_congr fun h' => bind_congr fun m' => ?_
  cases m'.next <;> rfl

/-- Lifting a call takes it and its return out of the list. -/
theorem lift_linked {h : Nodes I O} {l₁ l₂ l₃ : List ℕ} {a b : ℕ} {x : Content I O}
    (hl : Linked h (l₁ ++ a::(l₂ ++ b::l₃))) (hne : l₁ ≠ []) (hx : (contents h)[a]? = some x)
    (hmate : x.mate = some b) :
    ∃ h', lift h a = some h' ∧ Linked h' (l₁ ++ l₂ ++ l₃) ∧ contents h' = contents h ∧
      unlift h' a = some h := by
  obtain ⟨h₁,hu₁,hl₁,hc₁,hkeep,hr₁⟩ := unlink_linked hl hne
  rw [← List.append_assoc] at hl₁
  obtain ⟨h₂,hu₂,hl₂,hc₂,-,hr₂⟩ := unlink_linked hl₁ (by simp [hne])
  obtain ⟨k,p,rfl⟩ := List.eq_nil_or_concat' l₁ |>.resolve_left hne
  obtain ⟨q,l,hq⟩ : ∃ q l, l₂ ++ b::l₃ = q::l := List.exists_cons_of_ne_nil (by simp)
  obtain ⟨c,hc,hprev,hnext⟩ := linked_cell hl
  simp only [List.getLast?_append, List.getLast?_singleton, Option.some_or, hq,
    List.head?_cons] at hprev hnext
  have hlp : Linked h (k ++ p::a::(l₂ ++ b::l₃)) := by simpa using hl
  obtain ⟨cp,hcp,-⟩ := linked_cell hlp
  have hpa : p ≠ a := by have := hl.nodup; grind
  have ha : (h.set p { cp with next := some q })[a]? = some c := by
    rw [List.getElem?_set_ne hpa, hc]
  obtain ⟨c₁,hc₁',hx₁⟩ := (contents_get h₁ a x).mp (hc₁ ▸ hx)
  obtain ⟨c₂,hc₂',hx₂⟩ := (contents_get h₂ a x).mp (hc₂ ▸ hc₁ ▸ hx)
  refine ⟨h₂,?_,hl₂,hc₂.trans hc₁,?_⟩
  · simp only [unlink, hc, hprev, hnext, set_next_eq hcp, ha, Option.bind_eq_bind,
      Option.bind_some] at hu₁
    simp only [lift_unlinks, hc, hprev, hnext, set_next_eq hcp, ha, hu₁, hc₁', hx₁, hmate, hu₂,
      Option.bind_eq_bind, Option.bind_some]
  · rw [hc] at hkeep
    simp only [relink, hkeep, hprev, Option.bind_eq_bind, Option.bind_some] at hr₁
    obtain ⟨h',hset,hr₁⟩ := Option.bind_eq_some_iff.mp hr₁
    have ha' : h'[a]? = some c := by
      obtain ⟨cp',-,hcp'⟩ := Option.bind_eq_some_iff.mp hset
      rw [← Option.some.inj hcp', List.getElem?_set_ne hpa, hkeep]
    simp only [ha', hnext, Option.bind_some] at hr₁
    simp only [unlift_relinks, hc₂', hx₂, hmate, hr₂, hkeep, hprev, hset, ha', hnext, hr₁,
      Option.bind_eq_bind, Option.bind_some]

end Mitdist.CheckerLists
