import Mitdist.MemoSearch
import Mathlib.Data.Finset.Card
import Mathlib.Data.List.Nodup
import Mathlib.Data.List.TakeWhile

/-!
# Histories of calls and returns

A history lists the calls and the returns of operations. A partial
linearization is a sequence of different operations, each of which is legal
after those before it, and which has with every operation all those that had
returned before its call. They are the walks of a graph in which an operation
can be chosen if its call comes before the first return that is left.
-/

set_option autoImplicit false

namespace Mitdist.IntervalHistory
open Mitdist.MemoSearch
open scoped List

inductive Mark (ι : Type*) where
  | call (i : ι)
  | ret (i : ι)
  deriving DecidableEq, Repr

variable {ι S : Type*}

def Mark.op : Mark ι → ι
  | .call i => i
  | .ret i => i

@[simp]
def Mark.isCall : Mark ι → Bool
  | .call _ => true
  | .ret _ => false

theorem pair_sublist {α : Type*} {l : List α} {a b : α} (ha : a ∈ l) (hb : b ∈ l) (hne : a ≠ b) :
    [a, b] <+ l ∨ [b, a] <+ l := by
  obtain ⟨l₁,l₂,rfl⟩ := List.append_of_mem ha
  rcases List.mem_append.mp hb with hb | hb
  · exact .inr ((List.singleton_sublist.mpr hb).append
      (List.singleton_sublist.mpr List.mem_cons_self))
  · have hb := (List.mem_cons.mp hb).resolve_left (Ne.symm hne)
    exact .inl (((List.singleton_sublist.mpr hb).cons_cons a).trans
      (List.sublist_append_right l₁ _))

theorem pair_once {α : Type*} {l : List α} (hn : l.Nodup) {a b : α} (hab : [a, b] <+ l) :
    ¬ [b, a] <+ l := by
  induction l with
  | nil => simp at hab
  | cons x l ih =>
    obtain ⟨hx,hn⟩ := List.nodup_cons.mp hn
    intro hba
    cases hab with
    | cons _ hab =>
      cases hba with
      | cons _ hba => exact ih hn hab hba
      | cons_cons _ _ => exact hx (hab.subset (List.mem_cons_of_mem _ List.mem_cons_self))
    | cons_cons _ hb =>
      cases hba with
      | cons _ hba => exact hx (hba.subset (List.mem_cons_of_mem _ List.mem_cons_self))
      | cons_cons _ _ => exact hx (hb.subset List.mem_cons_self)

/-- Every operation is called once, and returns once after its call. -/
structure WellFormed (H : List (Mark ι)) : Prop where
  nodup : H.Nodup
  returns : ∀ i, .call i ∈ H → [.call i, .ret i] <+ H
  called : ∀ i, .ret i ∈ H → .call i ∈ H

theorem returns_after {H₁ H₂ : List (Mark ι)} {i : ι} (h : WellFormed (H₁ ++ .call i::H₂)) :
    .ret i ∈ H₂ := by
  obtain ⟨l₁,l₂,heq,h₁,h₂⟩ := List.sublist_append_iff.mp (h.returns i (by simp))
  cases l₁ with
  | nil =>
    obtain rfl : [.call i, .ret i] = l₂ := heq
    exact List.singleton_sublist.mp (List.cons_sublist_cons.mp h₂)
  | cons m l₁ =>
    obtain rfl : .call i = m := (List.cons.inj heq).1
    exact absurd (h₁.subset List.mem_cons_self)
      (fun hin => List.disjoint_of_nodup_append h.nodup hin List.mem_cons_self)

def Before (H : List (Mark ι)) (i j : ι) : Prop := [.ret i, .call j] <+ H

def heads (H : List (Mark ι)) : List ι := (H.takeWhile Mark.isCall).map Mark.op

theorem mem_heads {H : List (Mark ι)} (hn : H.Nodup) (i : ι) :
    i ∈ heads H ↔ .call i ∈ H ∧ ∀ j, ¬ Before H j i := by
  have hsplit := List.takeWhile_append_dropWhile (p := Mark.isCall) (l := H)
  have hmem : i ∈ heads H ↔ .call i ∈ H.takeWhile Mark.isCall := by
    rw [heads, List.mem_map]
    constructor
    · rintro ⟨m,hm,rfl⟩
      have hcall := List.mem_takeWhile_imp hm
      cases m with
      | call i => exact hm
      | ret i => simp [Mark.isCall] at hcall
    · exact fun h => ⟨_,h,rfl⟩
  rw [hmem]
  constructor
  · refine fun h => ⟨(List.takeWhile_sublist _).subset h,fun j hj => ?_⟩
    rw [Before, ← hsplit] at hj
    obtain ⟨l₁,l₂,heq,h₁,h₂⟩ := List.sublist_append_iff.mp hj
    cases l₁ with
    | nil =>
      have hi : Mark.call i ∈ H.dropWhile Mark.isCall :=
        h₂.subset ((List.nil_append l₂).symm.trans heq.symm ▸ by simp)
      rw [← hsplit] at hn
      exact List.disjoint_of_nodup_append hn h hi
    | cons m l₁ =>
      have hm : m = .ret j := by simpa using (List.cons.inj heq).1.symm
      have := List.mem_takeWhile_imp (h₁.subset List.mem_cons_self)
      simp [hm, Mark.isCall] at this
  · rintro ⟨hi,hnot⟩
    by_contra hmiss
    rw [← hsplit, List.mem_append] at hi
    have hi := hi.resolve_left hmiss
    cases hd : H.dropWhile Mark.isCall with
    | nil => simp [hd] at hi
    | cons m rest =>
      have hm := List.head_dropWhile_not Mark.isCall (l := H) (by simp [hd])
      simp only [hd, List.head_cons] at hm
      cases m with
      | call k => simp [Mark.isCall] at hm
      | ret j =>
        refine hnot j ?_
        have hrest : .call i ∈ rest := by simpa [hd] using hi
        rw [Before, ← hsplit, hd]
        exact ((List.singleton_sublist.mpr hrest).cons_cons _).trans
          (List.sublist_append_right _ _)

variable [DecidableEq ι]

def pending (H : List (Mark ι)) (done : Finset ι) : List (Mark ι) :=
  H.filter (fun m => m.op ∉ done)

theorem mem_pending (H : List (Mark ι)) (done : Finset ι) (m : Mark ι) :
    m ∈ pending H done ↔ m ∈ H ∧ m.op ∉ done := by
  simp [pending]

theorem pending_nodup {H : List (Mark ι)} (h : H.Nodup) (done : Finset ι) :
    (pending H done).Nodup := h.filter _

theorem pending_before (H : List (Mark ι)) (done : Finset ι) (i j : ι) :
    Before (pending H done) i j ↔ Before H i j ∧ i ∉ done ∧ j ∉ done := by
  rw [Before, Before, pending]
  constructor
  · intro h
    have hi := h.subset (List.mem_cons_self (a := Mark.ret i))
    have hj := h.subset (List.mem_cons_of_mem _ (List.mem_cons_self (a := Mark.call j)))
    exact ⟨h.trans List.filter_sublist,of_decide_eq_true (List.mem_filter.mp hi).2,
      of_decide_eq_true (List.mem_filter.mp hj).2⟩
  · rintro ⟨h,hi,hj⟩
    have := h.filter (fun m => m.op ∉ done)
    simpa [Mark.op, hi, hj] using this

theorem pending_well_formed {H : List (Mark ι)} (h : WellFormed H) (done : Finset ι) :
    WellFormed (pending H done) where
  nodup := pending_nodup h.nodup done
  returns i hi := by
    rw [mem_pending] at hi
    have hd : i ∉ done := hi.2
    have := (h.returns i hi.1).filter (fun m => m.op ∉ done)
    simpa [pending, Mark.op, hd] using this
  called i hi := by
    rw [mem_pending] at hi ⊢
    exact ⟨h.called i hi.1,hi.2⟩

theorem pending_nil {H : List (Mark ι)} (h : WellFormed H) (done : Finset ι) :
    pending H done = [] ↔ ∀ i, .call i ∈ H → i ∈ done := by
  rw [pending, List.filter_eq_nil_iff]
  constructor
  · intro hall i hi
    by_contra hd
    exact hall _ hi (decide_eq_true hd)
  · intro hall m hm
    have hd : m.op ∈ done := by
      cases m with
      | call i => exact hall i hm
      | ret i => exact hall i (h.called i hm)
    simpa using hd

structure Config (ι S : Type*) where
  done : Finset ι
  state : S

def graph (H : List (Mark ι)) (legal : S → ι → Option S) : MemoSearch.Graph (Config ι S) ι where
  moves g := heads (pending H g.done)
  move g i := (legal g.state i).map (fun s => ⟨insert i g.done,s⟩)

/-- The sequence can follow the operations `done` in the order of the history. -/
structure Extends (H : List (Mark ι)) (done : Finset ι) (os : List ι) : Prop where
  nodup : os.Nodup
  fresh : ∀ i ∈ os, i ∉ done
  called : ∀ i ∈ os, .call i ∈ H
  order : ∀ i ∈ os, ∀ j, Before H j i → j ∈ done ∨ [j, i] <+ os

omit [DecidableEq ι] in
theorem extends_nil (H : List (Mark ι)) (done : Finset ι) : Extends H done [] := by
  constructor <;> simp

theorem extends_cons {H : List (Mark ι)} (hn : H.Nodup) (done : Finset ι) (i : ι) (os : List ι) :
    Extends H done (i::os) ↔ i ∈ heads (pending H done) ∧ Extends H (insert i done) os := by
  rw [mem_heads (pending_nodup hn done), mem_pending]
  constructor
  · intro h
    have hnot : i ∉ os := (List.nodup_cons.mp h.nodup).1
    have hi : i ∉ done := h.fresh i List.mem_cons_self
    refine ⟨⟨⟨h.called i List.mem_cons_self,hi⟩,fun j hj => ?_⟩,(List.nodup_cons.mp h.nodup).2,
      fun k hk => ?_,fun k hk => h.called k (List.mem_cons_of_mem _ hk),fun k hk j hj => ?_⟩
    · obtain ⟨hj,hjd,-⟩ := (pending_before H done j i).mp hj
      have hsub := (h.order i List.mem_cons_self j hj).resolve_left hjd
      rcases List.sublist_cons_iff.mp hsub with hsub | ⟨r,hr,hsub⟩
      · exact hnot (hsub.subset (by simp))
      · obtain rfl : [i] = r := (List.cons.inj hr).2
        exact hnot (hsub.subset (by simp))
    · rw [Finset.mem_insert, not_or]
      exact ⟨fun hki => hnot (hki ▸ hk),h.fresh k (List.mem_cons_of_mem _ hk)⟩
    · rcases h.order k (List.mem_cons_of_mem _ hk) j hj with hd | hsub
      · exact .inl (Finset.mem_insert_of_mem hd)
      · rcases List.sublist_cons_iff.mp hsub with hsub | ⟨r,hr,-⟩
        · exact .inr hsub
        · exact .inl ((List.cons.inj hr).1 ▸ Finset.mem_insert_self i done)
  · rintro ⟨⟨⟨hcall,hi⟩,hfirst⟩,h⟩
    have hi : i ∉ done := hi
    have hnot : i ∉ os := fun hin => h.fresh i hin (Finset.mem_insert_self i done)
    refine ⟨List.nodup_cons.mpr ⟨hnot,h.nodup⟩,fun k hk => ?_,fun k hk => ?_,fun k hk j hj => ?_⟩
    · rcases List.mem_cons.mp hk with rfl | hk
      · exact hi
      · exact fun hd => h.fresh k hk (Finset.mem_insert_of_mem hd)
    · rcases List.mem_cons.mp hk with rfl | hk
      · exact hcall
      · exact h.called k hk
    · rcases List.mem_cons.mp hk with rfl | hin
      · by_contra hno
        exact hfirst j ((pending_before H done j k).mpr ⟨hj,fun hd => hno (.inl hd),hi⟩)
      · rcases h.order k hin j hj with hd | hsub
        · rcases Finset.mem_insert.mp hd with rfl | hd
          · exact .inr ((List.singleton_sublist.mpr hin).cons_cons _)
          · exact .inl hd
        · exact .inr (hsub.cons _)

/-- A walk chooses a sequence that follows what is done, legal from the state. -/
theorem walk_iff {H : List (Mark ι)} (hn : H.Nodup) (legal : S → ι → Option S)
    (g g' : Config ι S) (os : List ι) :
    Walk (graph H legal) g os g' ↔ Extends H g.done os ∧ os.foldlM legal g.state = some g'.state ∧
      g'.done = g.done ∪ os.toFinset := by
  constructor
  · intro h
    induction h with
    | nil g => exact ⟨extends_nil H g.done,rfl,by simp⟩
    | @cons g g₁ g₂ i os hi hm hw ih =>
      obtain ⟨s,hs,rfl⟩ := Option.map_eq_some_iff.mp hm
      obtain ⟨hext,hrun,hdone⟩ := ih
      refine ⟨(extends_cons hn g.done i os).mpr ⟨hi,hext⟩,?_,?_⟩
      · rw [List.foldlM_cons, hs]
        exact hrun
      · rw [hdone]
        simp [Finset.insert_union]
  · rintro ⟨hext,hrun,hdone⟩
    induction os generalizing g with
    | nil =>
      obtain ⟨done,s⟩ := g
      obtain ⟨done',s'⟩ := g'
      obtain rfl : s = s' := Option.some.inj hrun
      obtain rfl : done' = done := by simpa using hdone
      exact .nil _
    | cons i os ih =>
      obtain ⟨hi,hext⟩ := (extends_cons hn g.done i os).mp hext
      rw [List.foldlM_cons] at hrun
      obtain ⟨s,hs,hrun⟩ := Option.bind_eq_some_iff.mp hrun
      refine .cons hi (Option.map_eq_some_iff.mpr ⟨s,hs,rfl⟩) (ih _ hext hrun ?_)
      rw [hdone]
      simp [Finset.insert_union]

structure Partial (H : List (Mark ι)) (legal : S → ι → Option S) (s : S) (os : List ι) : Prop where
  order : Extends H ∅ os
  legal : (os.foldlM legal s).isSome

theorem walk_partial {H : List (Mark ι)} (hn : H.Nodup) {legal : S → ι → Option S} {s : S}
    {g : Config ι S} {os : List ι} (h : Walk (graph H legal) ⟨∅,s⟩ os g) :
    Partial H legal s os ∧ g.done = os.toFinset := by
  obtain ⟨hext,hrun,hdone⟩ := (walk_iff hn legal _ _ _).mp h
  exact ⟨⟨hext,Option.isSome_iff_exists.mpr ⟨_,hrun⟩⟩,by simpa using hdone⟩

theorem partial_walk {H : List (Mark ι)} (hn : H.Nodup) {legal : S → ι → Option S} {s : S}
    {os : List ι} (h : Partial H legal s os) :
    ∃ g, Walk (graph H legal) ⟨∅,s⟩ os g ∧ g.done = os.toFinset := by
  obtain ⟨s',hs⟩ := Option.isSome_iff_exists.mp h.legal
  exact ⟨⟨os.toFinset,s'⟩,(walk_iff hn legal _ _ _).mpr ⟨h.order,hs,by simp⟩,rfl⟩

theorem covers_states {H : List (Mark ι)} {legal : S → ι → Option S} (E : S → S → Prop)
    (hE : ∀ s t i s', E s t → legal s i = some s' → ∃ t', legal t i = some t' ∧ E s' t')
    {g c : Config ι S} (hd : g.done = c.done) (h : E g.state c.state) :
    Covers (graph H legal) Config.done g c := by
  refine covers_simulation (fun g c => g.done = c.done ∧ E g.state c.state) (fun g c h => h.1.symm)
    (fun g c i g' hr hi hm => ?_) ⟨hd,h⟩
  obtain ⟨s,hs,rfl⟩ := Option.map_eq_some_iff.mp hm
  obtain ⟨t,ht,hst⟩ := hE _ _ _ _ hr.2 hs
  refine ⟨?_,⟨insert i c.done,t⟩,Option.map_eq_some_iff.mpr ⟨t,ht,rfl⟩,?_,hst⟩
  · change i ∈ heads (pending H c.done)
    exact hr.1 ▸ hi
  · exact congrArg (insert i) hr.1

def rank (H : List (Mark ι)) (g : Config ι S) : ℕ := ((H.map Mark.op).toFinset \ g.done).card

theorem rank_move {H : List (Mark ι)} (hn : H.Nodup) (legal : S → ι → Option S)
    (g : Config ι S) (i : ι) (hi : i ∈ (graph H legal).moves g) (g' : Config ι S)
    (hm : (graph H legal).move g i = some g') : rank H g' < rank H g := by
  obtain ⟨s,-,rfl⟩ := Option.map_eq_some_iff.mp hm
  obtain ⟨hcall,hd⟩ := (mem_pending H g.done _).mp ((mem_heads (pending_nodup hn g.done) i).mp hi).1
  refine Finset.card_lt_card (Finset.ssubset_iff_of_subset ?_ |>.mpr ⟨i,?_,?_⟩)
  · exact Finset.sdiff_subset_sdiff (Finset.Subset.refl _) (Finset.subset_insert i g.done)
  · rw [Finset.mem_sdiff, List.mem_toFinset]
    exact ⟨List.mem_map.mpr ⟨_,hcall,rfl⟩,hd⟩
  · simp

theorem moves_length (H : List (Mark ι)) (legal : S → ι → Option S) (g : Config ι S) :
    ((graph H legal).moves g).length+1 < H.length+2 := by
  have h₁ := (List.takeWhile_sublist (l := pending H g.done) Mark.isCall).length_le
  have h₂ := List.length_filter_le (fun m : Mark ι => decide (m.op ∉ g.done)) H
  simp only [graph, heads, List.length_map, pending] at h₁ ⊢
  omega

end Mitdist.IntervalHistory
