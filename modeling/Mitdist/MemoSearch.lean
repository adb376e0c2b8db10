import Mathlib.Algebra.BigOperators.Group.List.Basic
import Mathlib.Algebra.Order.Ring.Nat
import Mathlib.Tactic.Ring

/-!
# Depth first search with a memory

A search keeps a stack of places with the moves that are left to try at each,
and remembers the places that it entered. A move to a place that a remembered
one covers is not made. If no move is left at the first place, every place that
can be walked to looks like the first place or a remembered one. If the moves
lower a rank, every step lowers the weight of the stack.
-/

set_option autoImplicit false

namespace Mitdist.MemoSearch

structure Graph (γ ι : Type*) where
  moves : γ → List ι
  move : γ → ι → Option γ

variable {γ ι β : Type*} {G : Graph γ ι} {view : γ → β} {goal : β → Prop}

variable (G) in
inductive Walk : γ → List ι → γ → Prop
  | nil (g : γ) : Walk g [] g
  | cons {g g' g'' : γ} {i : ι} {is : List ι} (hi : i ∈ G.moves g) (hm : G.move g i = some g')
      (hw : Walk g' is g'') : Walk g (i::is) g''

theorem walk_append {g g' g'' : γ} {is js : List ι} (h : Walk G g is g') (h' : Walk G g' js g'') :
    Walk G g (is++js) g'' := by
  induction h with
  | nil g => exact h'
  | cons hi hm _ ih => exact .cons hi hm (ih h')

theorem walk_concat {g g' g'' : γ} {i : ι} {is : List ι} (h : Walk G g is g')
    (hi : i ∈ G.moves g') (hm : G.move g' i = some g'') : Walk G g (is++[i]) g'' :=
  walk_append h (.cons hi hm (.nil g''))

variable (G view) in
/-- Every walk from `g` can be made from `c`, and ends at a place that looks the same. -/
def Covers (g c : γ) : Prop :=
  ∀ is g', Walk G g is g' → ∃ c', Walk G c is c' ∧ view c' = view g'

theorem covers_refl (g : γ) : Covers G view g g := fun _ g' h => ⟨g',h,rfl⟩

theorem covers_trans {g c d : γ} (h : Covers G view g c) (h' : Covers G view c d) :
    Covers G view g d := by
  intro is g' hg
  obtain ⟨c',hc,hv⟩ := h is g' hg
  obtain ⟨d',hd,hw⟩ := h' is c' hc
  exact ⟨d',hd,hw.trans hv⟩

theorem covers_view {g c : γ} (h : Covers G view g c) : view c = view g := by
  obtain ⟨c',hc,hv⟩ := h [] g (.nil g)
  cases hc
  exact hv

theorem covers_move {g g' c : γ} {i : ι} (h : Covers G view g c) (hi : i ∈ G.moves g)
    (hm : G.move g i = some g') :
    ∃ c', i ∈ G.moves c ∧ G.move c i = some c' ∧ Covers G view g' c' := by
  obtain ⟨c₁,hc₁,-⟩ := h [i] g' (.cons hi hm (.nil g'))
  cases hc₁ with
  | cons hci hcm _ =>
    refine ⟨_,hci,hcm,fun is g'' hw => ?_⟩
    obtain ⟨c'',hc'',hv⟩ := h (i::is) g'' (.cons hi hm hw)
    cases hc'' with
    | cons _ hcm' hw' =>
      obtain rfl := Option.some.inj (hcm.symm.trans hcm')
      exact ⟨c'',hw',hv⟩

theorem covers_simulation (R : γ → γ → Prop) (hview : ∀ g c, R g c → view c = view g)
    (hmove : ∀ g c i g', R g c → i ∈ G.moves g → G.move g i = some g' →
      i ∈ G.moves c ∧ ∃ c', G.move c i = some c' ∧ R g' c') {g c : γ} (h : R g c) :
    Covers G view g c := by
  intro is g' hw
  induction hw generalizing c with
  | nil g => exact ⟨c,.nil c,hview g c h⟩
  | cons hi hm _ ih =>
    obtain ⟨hci,c',hcm,hr⟩ := hmove _ _ _ _ h hi hm
    obtain ⟨c'',hw,hv⟩ := ih hr
    exact ⟨c'',.cons hci hcm hw,hv⟩

structure Frame (γ ι : Type*) where
  place : γ
  rest : List ι

structure State (γ ι : Type*) where
  frames : List (Frame γ ι)
  seen : List γ

variable (G view goal) in
inductive Step : State γ ι → State γ ι → Prop
  | blocked {g : γ} {i : ι} {rest : List ι} {fs : List (Frame γ ι)} {seen : List γ}
      (hg : ¬ goal (view g)) (hm : G.move g i = none) :
      Step ⟨⟨g,i::rest⟩::fs,seen⟩ ⟨⟨g,rest⟩::fs,seen⟩
  | known {g g' c : γ} {i : ι} {rest : List ι} {fs : List (Frame γ ι)} {seen : List γ}
      (hg : ¬ goal (view g)) (hm : G.move g i = some g') (hc : c ∈ seen)
      (hcov : Covers G view g' c) : Step ⟨⟨g,i::rest⟩::fs,seen⟩ ⟨⟨g,rest⟩::fs,seen⟩
  | enter {g g' : γ} {i : ι} {rest : List ι} {fs : List (Frame γ ι)} {seen : List γ}
      (hg : ¬ goal (view g)) (hm : G.move g i = some g') :
      Step ⟨⟨g,i::rest⟩::fs,seen⟩ ⟨⟨g',G.moves g'⟩::⟨g,rest⟩::fs,g'::seen⟩
  | back {g : γ} {f : Frame γ ι} {fs : List (Frame γ ι)} {seen : List γ}
      (hg : ¬ goal (view g)) : Step ⟨⟨g,[]⟩::f::fs,seen⟩ ⟨f::fs,seen⟩

variable (G view) in
def Remembered (seen : List γ) (g : γ) (i : ι) : Prop :=
  ∀ g', G.move g i = some g' → ∃ c ∈ seen, Covers G view g' c

variable (G view goal) in
/-- All moves of the place lead to places that are remembered. -/
def Closed (seen : List γ) (g : γ) : Prop :=
  ¬ goal (view g) ∧ ∀ i ∈ G.moves g, Remembered G view seen g i

variable (G view) in
def Tried (seen : List γ) (f : Frame γ ι) : Prop :=
  ∃ tried, G.moves f.place = tried ++ f.rest ∧ ∀ i ∈ tried, Remembered G view seen f.place i

variable (G view goal) in
structure Exploring (s : State γ ι) : Prop where
  tried : ∀ f ∈ s.frames, Tried G view s.seen f
  below : ∀ f ∈ s.frames.tail, ¬ goal (view f.place)
  seen : ∀ c ∈ s.seen, (∃ f ∈ s.frames, f.place = c) ∨ Closed G view goal s.seen c

theorem exploring_start (root : γ) : Exploring G view goal ⟨[⟨root,G.moves root⟩],[]⟩ where
  tried f hf := by
    obtain rfl := List.mem_singleton.mp hf
    exact ⟨[],rfl,by simp⟩
  below f hf := absurd hf (by simp)
  seen c hc := absurd hc (by simp)

theorem remembered_more {seen more : List γ} (hsub : seen ⊆ more) {g : γ} {i : ι}
    (h : Remembered G view seen g i) : Remembered G view more g i := by
  intro g' hm
  obtain ⟨c,hc,hcov⟩ := h g' hm
  exact ⟨c,hsub hc,hcov⟩

theorem tried_more {seen more : List γ} (hsub : seen ⊆ more) {f : Frame γ ι}
    (h : Tried G view seen f) : Tried G view more f := by
  obtain ⟨tried,hmoves,hr⟩ := h
  exact ⟨tried,hmoves,fun i hi => remembered_more hsub (hr i hi)⟩

theorem tried_next {seen more : List γ} (hsub : seen ⊆ more) {g : γ} {i : ι} {rest : List ι}
    (h : Tried G view seen ⟨g,i::rest⟩) (hi : Remembered G view more g i) :
    Tried G view more ⟨g,rest⟩ := by
  obtain ⟨tried,hmoves,hr⟩ := h
  refine ⟨tried++[i],by simpa using hmoves,fun j hj => ?_⟩
  rcases List.mem_append.mp hj with hj | hj
  · exact remembered_more hsub (hr j hj)
  · obtain rfl := List.mem_singleton.mp hj
    exact hi

/-- A move that was tried is taken off the moves that are left. -/
theorem exploring_next {g : γ} {i : ι} {rest : List ι} {fs : List (Frame γ ι)} {seen : List γ}
    (h : Exploring G view goal ⟨⟨g,i::rest⟩::fs,seen⟩) (hi : Remembered G view seen g i) :
    Exploring G view goal ⟨⟨g,rest⟩::fs,seen⟩ where
  tried f hf := by
    rcases List.mem_cons.mp hf with rfl | hf
    · exact tried_next (fun _ hc => hc) (h.tried _ (by simp)) hi
    · exact h.tried f (List.mem_cons_of_mem _ hf)
  below := h.below
  seen c hc := by
    rcases h.seen c hc with ⟨f,hf,rfl⟩ | hclosed
    · rcases List.mem_cons.mp hf with rfl | hf
      · exact .inl ⟨_,List.mem_cons_self,rfl⟩
      · exact .inl ⟨f,List.mem_cons_of_mem _ hf,rfl⟩
    · exact .inr hclosed

theorem exploring_step {s s' : State γ ι} (h : Exploring G view goal s)
    (hs : Step G view goal s s') : Exploring G view goal s' := by
  cases hs with
  | blocked hg hm => exact exploring_next h (fun g' hm' => absurd (hm.symm.trans hm') (by simp))
  | @known g g' c i rest fs seen hg hm hc hcov =>
    refine exploring_next h (fun g'' hm' => ⟨c,hc,?_⟩)
    obtain rfl := Option.some.inj (hm.symm.trans hm')
    exact hcov
  | @enter g g' i rest fs seen hg hm =>
    have hsub : seen ⊆ g'::seen := List.subset_cons_self g' seen
    refine ⟨fun f hf => ?_,fun f hf => ?_,fun c hc => ?_⟩
    · rcases List.mem_cons.mp hf with rfl | hf
      · exact ⟨[],rfl,by simp⟩
      rcases List.mem_cons.mp hf with rfl | hf
      · refine tried_next hsub (h.tried _ List.mem_cons_self) (fun g'' hm' => ?_)
        obtain rfl := Option.some.inj (hm.symm.trans hm')
        exact ⟨g',List.mem_cons_self,covers_refl g'⟩
      · exact tried_more hsub (h.tried f (List.mem_cons_of_mem _ hf))
    · rcases List.mem_cons.mp hf with rfl | hf
      · exact hg
      · exact h.below f hf
    · rcases List.mem_cons.mp hc with rfl | hc
      · exact .inl ⟨_,List.mem_cons_self,rfl⟩
      rcases h.seen c hc with ⟨f,hf,rfl⟩ | hclosed
      · rcases List.mem_cons.mp hf with rfl | hf
        · exact .inl ⟨⟨g,rest⟩,by simp,rfl⟩
        · exact .inl ⟨f,by simp [hf],rfl⟩
      · exact .inr ⟨hclosed.1,fun j hj => remembered_more hsub (hclosed.2 j hj)⟩
  | @back g f fs seen hg =>
    refine ⟨fun f' hf => h.tried f' (List.mem_cons_of_mem _ hf),
      fun f' hf => h.below f' (List.mem_cons_of_mem _ hf),fun c hc => ?_⟩
    rcases h.seen c hc with ⟨f',hf,rfl⟩ | hclosed
    · rcases List.mem_cons.mp hf with rfl | hf
      · obtain ⟨tried,hmoves,hr⟩ := h.tried _ List.mem_cons_self
        simp only [List.append_nil] at hmoves
        exact .inr ⟨hg,fun i hi => hr i (hmoves ▸ hi)⟩
      · exact .inl ⟨f',hf,rfl⟩
    · exact .inr hclosed

/-- A search that has no move left has seen a likeness of every place that can
be walked to, and none is a goal. -/
theorem exhausted {root : γ} {seen : List γ} (h : Exploring G view goal ⟨[⟨root,[]⟩],seen⟩)
    (hg : ¬ goal (view root)) {is : List ι} {g : γ} (hw : Walk G root is g) :
    ¬ goal (view g) ∧ ∃ c ∈ root::seen, view c = view g := by
  have hclosed : ∀ c ∈ root::seen, Closed G view goal seen c := by
    obtain ⟨tried,hmoves,hr⟩ := h.tried ⟨root,[]⟩ List.mem_cons_self
    simp only [List.append_nil] at hmoves
    have hroot : Closed G view goal seen root := ⟨hg,fun i hi => hr i (hmoves ▸ hi)⟩
    intro c hc
    rcases List.mem_cons.mp hc with rfl | hc
    · exact hroot
    rcases h.seen c hc with ⟨f,hf,rfl⟩ | hc
    · obtain rfl := List.mem_singleton.mp hf
      exact hroot
    · exact hc
  have hcovered : ∀ (is : List ι) (a g : γ), Walk G a is g →
      (∃ c ∈ root::seen, Covers G view a c) → ∃ c ∈ root::seen, Covers G view g c := by
    intro is a g hw
    induction hw with
    | nil g => exact fun h => h
    | cons hi hm _ ih =>
      rintro ⟨c,hc,hcov⟩
      obtain ⟨c',hci,hcm,hcov'⟩ := covers_move hcov hi hm
      obtain ⟨d,hd,hcd⟩ := (hclosed c hc).2 _ hci c' hcm
      exact ih ⟨d,List.mem_cons_of_mem _ hd,covers_trans hcov' hcd⟩
  obtain ⟨c,hc,hcov⟩ := hcovered is root g hw ⟨root,List.mem_cons_self,covers_refl root⟩
  have hview := covers_view hcov
  exact ⟨hview ▸ (hclosed c hc).1,c,hc,hview⟩

def weight (bound : ℕ) (rank : γ → ℕ) (fs : List (Frame γ ι)) : ℕ :=
  (fs.map (fun f => (f.rest.length+1)*bound^rank f.place)).sum

theorem weight_descends (bound : ℕ) (rank : γ → ℕ)
    (hrank : ∀ g, ∀ i ∈ G.moves g, ∀ g', G.move g i = some g' → rank g' < rank g)
    (hmoves : ∀ g, (G.moves g).length+1 < bound) {s s' : State γ ι}
    (he : Exploring G view goal s) (h : Step G view goal s s') :
    weight bound rank s'.frames < weight bound rank s.frames := by
  have hpos : ∀ g, 0 < bound^rank g := fun g => Nat.pow_pos (by have := hmoves g; omega)
  cases h with
  | @blocked g i rest fs seen hg hm =>
    have := hpos g
    simp only [weight, List.map_cons, List.sum_cons, List.length_cons, add_mul]
    omega
  | @known g g' c i rest fs seen hg hm hc hcov =>
    have := hpos g
    simp only [weight, List.map_cons, List.sum_cons, List.length_cons, add_mul]
    omega
  | @enter g g' i rest fs seen hg hm =>
    obtain ⟨tried,htried,-⟩ := he.tried _ List.mem_cons_self
    have hi : i ∈ G.moves g := htried ▸ List.mem_append_right tried List.mem_cons_self
    have hlt : ((G.moves g').length+1)*bound^rank g' < bound^rank g := by
      calc ((G.moves g').length+1)*bound^rank g' < bound*bound^rank g' :=
            Nat.mul_lt_mul_of_pos_right (hmoves g') (hpos _)
        _ = bound^(rank g'+1) := by ring
        _ ≤ bound^rank g := Nat.pow_le_pow_right (by have := hmoves g; omega)
          (hrank g i hi g' hm)
    simp only [weight, List.map_cons, List.sum_cons, List.length_cons, add_mul] at hlt ⊢
    omega
  | @back g f fs seen hg =>
    have := hpos g
    simp only [weight, List.map_cons, List.sum_cons, List.length_nil]
    omega

end Mitdist.MemoSearch
