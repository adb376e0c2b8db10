import Mitdist.CheckerLists

/-!
# The search of the checker

The loop of `checkSingle` is a depth first search over configurations: the set
of operations that are linearized and the state that they lead to. Each
iteration of the loop is one step of the search with a memory, whose stack is
the slice of calls and whose moves are the calls before the first return.
-/

set_option autoImplicit false

namespace Mitdist.CheckerSearch
open Mitdist.LinkedCells Mitdist.CheckerBitset Mitdist.Checker Mitdist.CheckerLists
open Mitdist.MemoSearch Mitdist.IntervalHistory
open scoped List

variable {S I O : Type}

def inputOf (entries : List (Entry I O)) (i : ℕ) : Option I :=
  (entries.find? (fun e => e.kind = .callEntry ∧ e.id = i)).bind (fun e => asInput e.value)

def outputOf (entries : List (Entry I O)) (i : ℕ) : Option O :=
  (entries.find? (fun e => e.kind = .returnEntry ∧ e.id = i)).bind (fun e => asOutput e.value)

/-- What the model makes of an operation of the history. -/
def legal (model : Filled S I O) (entries : List (Entry I O)) (s : S) (i : ℕ) : Option S := do
  let input ← inputOf entries i
  let output ← outputOf entries i
  let (ok, s') := model.step s input output
  if ok then some s' else none

theorem find_entry {entries : List (Entry I O)} (hn : (entries.map mark).Nodup) {e : Entry I O}
    (he : e ∈ entries) : entries.find? (fun f => f.kind = e.kind ∧ f.id = e.id) = some e := by
  obtain ⟨f,hf⟩ : ∃ f, entries.find? (fun f => f.kind = e.kind ∧ f.id = e.id) = some f := by
    rw [← Option.isSome_iff_exists, List.find?_isSome]
    exact ⟨e,he,by simp⟩
  have hprop := List.find?_some hf
  simp only [decide_eq_true_eq] at hprop
  have hfe : f = e := List.inj_on_of_nodup_map hn (List.mem_of_find?_eq_some hf) he
    (by simp only [mark, hprop])
  rw [hf, hfe]

theorem input_of {entries : List (Entry I O)} (hn : (entries.map mark).Nodup) {e : Entry I O}
    (he : e ∈ entries) (hk : e.kind = .callEntry) : inputOf entries e.id = asInput e.value := by
  have hfind := find_entry hn he
  rw [hk] at hfind
  simp only [inputOf, hfind, Option.bind_some]

theorem output_of {entries : List (Entry I O)} (hn : (entries.map mark).Nodup) {e : Entry I O}
    (he : e ∈ entries) (hk : e.kind = .returnEntry) :
    outputOf entries e.id = asOutput e.value := by
  have hfind := find_entry hn he
  rw [hk] at hfind
  simp only [outputOf, hfind, Option.bind_some]

/-- States that the model calls equal take the same steps to equal states. -/
def SoundEqual (model : Filled S I O) : Prop :=
  ∀ s t, model.equal s t = true → ∀ i o, (model.step s i o).1 = true →
    (model.step t i o).1 = true ∧
      model.equal (model.step s i o).2 (model.step t i o).2 = true

theorem legal_equal {model : Filled S I O} (hm : SoundEqual model) (entries : List (Entry I O))
    (s t : S) (i : ℕ) (s' : S) (h : model.equal s t = true)
    (hs : legal model entries s i = some s') :
    ∃ t', legal model entries t i = some t' ∧ model.equal s' t' = true := by
  obtain ⟨a,ha,hs⟩ := Option.bind_eq_some_iff.mp hs
  obtain ⟨o,ho,hs⟩ := Option.bind_eq_some_iff.mp hs
  have hok : (model.step s a o).1 = true ∧ (model.step s a o).2 = s' := by
    revert hs
    cases hstep : model.step s a o with
    | mk ok s'' => cases ok <;> simp
  obtain ⟨ht,heq⟩ := hm s t h a o hok.1
  refine ⟨(model.step t a o).2,?_,hok.2 ▸ heq⟩
  simp [legal, ha, ho, ht]

section

variable (model : Filled S I O) (entries : List (Entry I O))

def configs : MemoSearch.Graph (Config ℕ S) ℕ := graph (entries.map mark) (legal model entries)

def root : Config ℕ S := ⟨∅,model.init⟩

/-- All operations are linearized. -/
def Finished (done : Finset ℕ) : Prop := left (placed entries) done = []

/-- The nodes of the operations that are not done are linked behind the head. -/
structure Laid (h : Nodes I O) (done : Finset ℕ) : Prop where
  linked : Linked h (entries.length::(left (placed entries) done).map Prod.fst)
  contents : contents h = contentsOf entries ++ [⟨.nil,none,-1⟩]

/-- The calls, the last one first, with the places that they were made at, the
moves that are left there, and their ids, the first one first. -/
inductive Stacked : List (CallsEntry S) → List (Frame (Config ℕ S) ℕ) → List ℕ → Nodes I O →
    Config ℕ S → Prop
  | base {h : Nodes I O} (hl : Laid entries h ∅) : Stacked [] [] [] h (root model)
  | push {cs : List (CallsEntry S)} {fs : List (Frame (Config ℕ S) ℕ)} {ids : List ℕ}
      {h h' : Nodes I O} {g g' : Config ℕ S} {a : ℕ} {e : Entry I O}
      {before after : List (ℕ × Entry I O)} (hs : Stacked cs fs ids h g)
      (hsplit : left (placed entries) g.done = before ++ (a,e)::after)
      (hcalls : ∀ x ∈ before, x.2.kind = .callEntry) (hk : e.kind = .callEntry)
      (hm : (configs model entries).move g e.id = some g') (hu : unlift h' a = some h)
      (hl : Laid entries h' g'.done) :
      Stacked (⟨a,g.state⟩::cs) (⟨g,heads (marks after)⟩::fs) (ids ++ [e.id]) h' g'

/-- The variables of the loop at a configuration. -/
structure Refines (s : Search S I O) (seen : List (Config ℕ S)) (g : Config ℕ S)
    (fs : List (Frame (Config ℕ S) ℕ)) (ids : List ℕ) (before after : List (ℕ × Entry I O)) :
    Prop where
  stack : Stacked model entries s.calls.reverse fs ids s.heap g
  cursor : left (placed entries) g.done = before ++ after
  calls : ∀ x ∈ before, x.2.kind = .callEntry
  entry : s.entry = (after.map Prod.fst).head?
  head : s.headEntry = entries.length
  state : s.state = g.state
  linearized : Holds s.linearized g.done
  capacity : entries.length/2 ≤ 64*s.linearized.length
  cache : ∀ k, ∀ c ∈ s.cache k, ∃ d ∈ seen, c.state = d.state ∧ Holds c.linearized d.done ∧
    c.linearized.length = s.linearized.length ∧ d.done ⊆ Finset.range (entries.length/2)

end

variable {model : Filled S I O} {entries : List (Entry I O)}

theorem heads_append {before after : List (ℕ × Entry I O)}
    (h : ∀ x ∈ before, x.2.kind = .callEntry) :
    heads (marks (before ++ after)) = before.map (fun x => x.2.id) ++ heads (marks after) := by
  induction before with
  | nil => rfl
  | cons x before ih =>
    have hx := mark_call (h x List.mem_cons_self)
    have ih := ih (fun y hy => h y (List.mem_cons_of_mem _ hy))
    simp only [heads, marks, List.cons_append, List.map_cons, List.takeWhile_cons, hx,
      Mark.isCall, if_true, Mark.op] at ih ⊢
    rw [ih]

theorem heads_call {a : ℕ} {e : Entry I O} {after : List (ℕ × Entry I O)}
    (h : e.kind = .callEntry) : heads (marks ((a,e)::after)) = e.id::heads (marks after) := by
  have hb : ∀ x ∈ [(a,e)], x.2.kind = .callEntry := by simpa using h
  exact heads_append hb

theorem heads_return {a : ℕ} {e : Entry I O} {after : List (ℕ × Entry I O)}
    (h : e.kind = .returnEntry) : heads (marks ((a,e)::after)) = [] := by
  simp [heads, marks, mark_return h]

theorem placed_mem {x : ℕ × Entry I O} (h : x ∈ placed entries) : x.2 ∈ entries := by
  induction entries with
  | nil => simp [placed] at h
  | cons e entries ih =>
    rcases List.mem_cons.mp h with rfl | h
    · exact List.mem_cons_self
    · exact List.mem_cons_of_mem _ (ih h)

theorem left_mem {done : Finset ℕ} {before after : List (ℕ × Entry I O)} {x : ℕ × Entry I O}
    (h : left (placed entries) done = before ++ x::after) :
    x ∈ placed entries ∧ x.2.id ∉ done := by
  have hin : x ∈ left (placed entries) done := by simp [h]
  simpa [left] using hin

theorem moves_left (g : Config ℕ S) :
    (configs model entries).moves g = heads (marks (left (placed entries) g.done)) := by
  rw [marks_left, marks_placed]
  rfl

theorem moves_split {g : Config ℕ S} {before after : List (ℕ × Entry I O)}
    (h : left (placed entries) g.done = before ++ after)
    (hb : ∀ x ∈ before, x.2.kind = .callEntry) :
    (configs model entries).moves g = before.map (fun x => x.2.id) ++ heads (marks after) := by
  rw [← heads_append hb, ← h, moves_left]

theorem stacked_laid {cs : List (CallsEntry S)} {fs : List (Frame (Config ℕ S) ℕ)} {ids : List ℕ}
    {h : Nodes I O} {g : Config ℕ S} (hs : Stacked model entries cs fs ids h g) :
    Laid entries h g.done := by
  cases hs with
  | base hl => exact hl
  | push _ _ _ _ _ _ hl => exact hl

theorem stacked_walk {cs : List (CallsEntry S)} {fs : List (Frame (Config ℕ S) ℕ)} {ids : List ℕ}
    {h : Nodes I O} {g : Config ℕ S} (hs : Stacked model entries cs fs ids h g) :
    Walk (configs model entries) (root model) ids g := by
  induction hs with
  | base hl => exact .nil _
  | push _ hsplit hcalls hk hm _ _ ih =>
    refine walk_concat ih ?_ hm
    rw [moves_split hsplit hcalls, heads_call hk]
    simp

theorem stacked_length {cs : List (CallsEntry S)} {fs : List (Frame (Config ℕ S) ℕ)}
    {ids : List ℕ} {h : Nodes I O} {g : Config ℕ S} (hs : Stacked model entries cs fs ids h g) :
    cs.length = ids.length := by
  induction hs with
  | base hl => rfl
  | push _ _ _ _ _ _ _ ih => simp [ih]

theorem stacked_bottom {cs : List (CallsEntry S)} {ids : List ℕ} {h : Nodes I O} {g : Config ℕ S}
    (hs : Stacked model entries cs [] ids h g) : cs = [] ∧ g = root model := by
  cases hs
  exact ⟨rfl,rfl⟩

theorem stacked_pop {cs : List (CallsEntry S)} {f : Frame (Config ℕ S) ℕ}
    {fs : List (Frame (Config ℕ S) ℕ)} {ids : List ℕ} {h' : Nodes I O} {g' : Config ℕ S}
    (hs : Stacked model entries cs (f::fs) ids h' g') :
    ∃ cs₀ ids₀ h a e before after, cs = ⟨a,f.place.state⟩::cs₀ ∧ f.rest = heads (marks after) ∧
      Stacked model entries cs₀ fs ids₀ h f.place ∧
      left (placed entries) f.place.done = before ++ (a,e)::after ∧
      (∀ x ∈ before, x.2.kind = .callEntry) ∧ e.kind = .callEntry ∧
      (configs model entries).move f.place e.id = some g' ∧ unlift h' a = some h := by
  cases hs with
  | push hs hsplit hcalls hk hm hu _ =>
    exact ⟨_,_,_,_,_,_,_,rfl,rfl,hs,hsplit,hcalls,hk,hm,hu⟩

theorem contents_id {x : ℕ × Entry I O} (h : x ∈ placed entries) :
    ∃ y, (contentsOf entries)[x.1]? = some y ∧ y.id = x.2.id := by
  obtain ⟨_,_,-,hget⟩ := contents_placed h
  exact ⟨_,hget,rfl⟩

theorem laid_contents {h : Nodes I O} {done : Finset ℕ} (hl : Laid entries h done) {a : ℕ}
    {y : Content I O} (hy : (contentsOf entries)[a]? = some y) :
    ∃ c, h[a]? = some c ∧ c.content = y := by
  refine (contents_get h a y).mp ?_
  rw [hl.contents, List.getElem?_append_left (List.getElem?_eq_some_iff.mp hy).1, hy]

def asIds (os : List ℕ) : List ℤ := os.map (fun i : ℕ => (i : ℤ))

/-- The ids of the calls, read from the nodes. -/
theorem stacked_ids {cs : List (CallsEntry S)} {fs : List (Frame (Config ℕ S) ℕ)} {ids : List ℕ}
    {h h₁ : Nodes I O} {g : Config ℕ S} {done : Finset ℕ}
    (hs : Stacked model entries cs fs ids h g) (hl : Laid entries h₁ done) :
    callIds h₁ cs.reverse = some (asIds ids) := by
  induction hs with
  | base _ => rfl
  | push _ hsplit _ _ _ _ _ ih =>
    obtain ⟨y,hy,hid⟩ := contents_id (left_mem hsplit).1
    obtain ⟨c,hc,rfl⟩ := laid_contents hl hy
    have ih : List.mapM _ _ = _ := ih
    rw [callIds, List.reverse_cons, List.mapM_append, ih]
    simp [hc, hid, asIds]

theorem head_next {h : Nodes I O} {done : Finset ℕ} (hl : Laid entries h done) :
    ∃ c, h[entries.length]? = some c ∧
      c.next = ((left (placed entries) done).map Prod.fst).head? := by
  have hlinked : Linked h ([] ++ entries.length::(left (placed entries) done).map Prod.fst) :=
    hl.linked
  obtain ⟨c,hc,-,hnext⟩ := linked_cell hlinked
  exact ⟨c,hc,hnext⟩

theorem walk_done (hh : History entries) {ids : List ℕ} {g : Config ℕ S}
    (hw : Walk (configs model entries) (root model) ids g) :
    Partial (entries.map mark) (legal model entries) model.init ids ∧ g.done = ids.toFinset ∧
      g.done ⊆ Finset.range (entries.length/2) := by
  obtain ⟨hpartly,hdone⟩ := walk_partial hh.wellFormed.nodup hw
  refine ⟨hpartly,hdone,fun i hi => ?_⟩
  rw [hdone, List.mem_toFinset] at hi
  obtain ⟨e,he,hmark⟩ := List.mem_map.mp (hpartly.order.called i hi)
  have hid : e.id = i := by rw [← mark_op, hmark, Mark.op]
  exact Finset.mem_range.mpr (hid ▸ hh.ids e he)

theorem placed_unique (hn : (entries.map mark).Nodup) {x y : ℕ × Entry I O}
    (hx : x ∈ placed entries) (hy : y ∈ placed entries) (h : mark x.2 = mark y.2) : x = y := by
  rw [← marks_placed] at hn
  exact List.inj_on_of_nodup_map hn hx hy h

variable (model) in
/-- The node of a call that is left, the node of its return, and what the model
makes of the two. -/
theorem call_nodes (hh : History entries) {h : Nodes I O} {g : Config ℕ S} {a : ℕ} {e : Entry I O}
    {before after : List (ℕ × Entry I O)} (hl : Laid entries h g.done)
    (hsplit : left (placed entries) g.done = before ++ (a,e)::after) (hk : e.kind = .callEntry) :
    ∃ c b m r input output, h[a]? = some c ∧ c.content = ⟨e.value,some b,e.id⟩ ∧
      c.next = (after.map Prod.fst).head? ∧ h[b]? = some m ∧ (b,r) ∈ placed entries ∧
      mark r = .ret e.id ∧ asInput e.value = some input ∧ asOutput m.content.value = some output ∧
      ∀ s, legal model entries s e.id = if (model.step s input output).1 then
        some (model.step s input output).2 else none := by
  obtain ⟨hin,-⟩ := left_mem hsplit
  obtain ⟨b,r,hr,hrk,hri,hget⟩ := contents_call hh.wellFormed hin hk
  obtain ⟨c,hc,hcont⟩ := laid_contents hl hget
  obtain ⟨m,hm,hmcont⟩ := laid_contents hl (contents_return hr hrk)
  obtain ⟨input,hinput⟩ := Option.isSome_iff_exists.mp (hh.inputs e (placed_mem hin) hk)
  obtain ⟨output,houtput⟩ := Option.isSome_iff_exists.mp (hh.outputs r (placed_mem hr) hrk)
  have hlinked := hl.linked
  rw [hsplit, List.map_append, List.map_cons, ← List.cons_append] at hlinked
  obtain ⟨c',hc',-,hnext⟩ := linked_cell hlinked
  obtain rfl := Option.some.inj (hc.symm.trans hc')
  refine ⟨c,b,m,r,input,output,hc,hcont,hnext,hm,hr,by rw [mark_return hrk, hri],hinput,
    by rw [hmcont, houtput],fun s => ?_⟩
  have hi : inputOf entries e.id = some input :=
    (input_of hh.wellFormed.nodup (placed_mem hin) hk).trans hinput
  have ho : outputOf entries e.id = some output :=
    hri ▸ (output_of hh.wellFormed.nodup (placed_mem hr) hrk).trans houtput
  simp only [legal, hi, ho, Option.bind_eq_bind, Option.bind_some]

theorem refines_next {s : Search S I O} {seen : List (Config ℕ S)} {g : Config ℕ S}
    {fs : List (Frame (Config ℕ S) ℕ)} {ids : List ℕ} {before after : List (ℕ × Entry I O)}
    {a : ℕ} {e : Entry I O} (h : Refines model entries s seen g fs ids before ((a,e)::after))
    (hk : e.kind = .callEntry) {next : Option ℕ} (hnext : next = (after.map Prod.fst).head?) :
    Refines model entries { s with entry := next } seen g fs ids (before ++ [(a,e)]) after where
  stack := h.stack
  cursor := by rw [h.cursor]; simp
  calls x hx := by
    rcases List.mem_append.mp hx with hx | hx
    · exact h.calls x hx
    · obtain rfl := List.mem_singleton.mp hx
      exact hk
  entry := hnext
  head := h.head
  state := h.state
  linearized := h.linearized
  capacity := h.capacity
  cache := h.cache

/-- A configuration that `cacheContains` finds is covered by one that was seen. -/
theorem cached_covers (hm : SoundEqual model) {seen : List (Config ℕ S)} {cache : Cache S}
    {len : ℕ} (hlen : entries.length/2 ≤ 64*len)
    (hcache : ∀ k, ∀ c ∈ cache k, ∃ d ∈ seen, c.state = d.state ∧ Holds c.linearized d.done ∧
      c.linearized.length = len ∧ d.done ⊆ Finset.range (entries.length/2))
    {b : Bitset} {g : Config ℕ S} (hb : Holds b g.done)
    (hg : g.done ⊆ Finset.range (entries.length/2))
    (h : cacheContains model cache ⟨b,g.state⟩ = true) :
    ∃ d ∈ seen, Covers (configs model entries) Config.done g d := by
  obtain ⟨elem,helem,heq⟩ := List.any_eq_true.mp h
  obtain ⟨hbits,hstate⟩ := Bool.and_eq_true_iff.mp heq
  obtain ⟨d,hd,hds,hdh,hdl,hdr⟩ := hcache _ elem helem
  obtain rfl : b = elem.linearized := (equals_iff _ _).mp hbits
  refine ⟨d,hd,covers_states (fun s t => model.equal s t = true) (legal_equal hm entries) ?_ ?_⟩
  · exact holds_unique hb hdh (hdl ▸ hlen) hg hdr
  · exact hds ▸ hstate

/-- A call that is lifted leaves the nodes of the configuration behind it, and
`unlift` brings back those before. -/
theorem lift_laid (hh : History entries) {h : Nodes I O} {done : Finset ℕ} {a b : ℕ}
    {e r : Entry I O} {before after : List (ℕ × Entry I O)} {c : Cell (Content I O)}
    (hl : Laid entries h done)
    (hsplit : left (placed entries) done = before ++ (a,e)::after) (hk : e.kind = .callEntry)
    (hc : h[a]? = some c) (hmate : c.content.mate = some b) (hr : (b,r) ∈ placed entries)
    (hmark : mark r = .ret e.id) :
    ∃ h', lift h a = some h' ∧ Laid entries h' (insert e.id done) ∧ unlift h' a = some h := by
  obtain ⟨P₂,b',r',P₃,rfl,hrk,hri,hleft⟩ :=
    left_split (marks_placed entries ▸ hh.wellFormed) hk hsplit
  have hr' : (b',r') ∈ placed entries := by
    have : (b',r') ∈ left (placed entries) done := by simp [hsplit]
    exact (List.mem_filter.mp this).1
  obtain ⟨rfl,rfl⟩ := Prod.mk.inj (placed_unique hh.wellFormed.nodup hr' hr
    (by rw [hmark, mark_return hrk, hri]))
  have hlinked := hl.linked
  simp only [hsplit, List.map_append, List.map_cons, ← List.cons_append] at hlinked
  obtain ⟨h',hlift,hlinked',hcont,hunlift⟩ := lift_linked hlinked (List.cons_ne_nil _ _)
    ((contents_get h a _).mpr ⟨c,hc,rfl⟩) hmate
  refine ⟨h',hlift,⟨?_,hcont.trans hl.contents⟩,hunlift⟩
  rw [hleft]
  simpa using hlinked'

/-- The variables after a call was added to the slice of calls. -/
def pushed (s : Search S I O) (a : ℕ) (bits : Bitset) (state : S) (h : Nodes I O)
    (next : Option ℕ) : Search S I O :=
  { s with
    cache := Function.update s.cache (CheckerBitset.hash bits)
      (s.cache (CheckerBitset.hash bits) ++ [⟨bits,state⟩])
    calls := s.calls ++ [⟨a,s.state⟩]
    state := state
    linearized := bits
    heap := h
    entry := next }

theorem refines_pushed {s : Search S I O} {seen : List (Config ℕ S)} {g g' : Config ℕ S}
    {fs : List (Frame (Config ℕ S) ℕ)} {ids : List ℕ} {before after : List (ℕ × Entry I O)}
    {a : ℕ} {e : Entry I O} (h : Refines model entries s seen g fs ids before ((a,e)::after))
    (hk : e.kind = .callEntry) (hmove : (configs model entries).move g e.id = some g')
    {h' : Nodes I O} (hunlift : unlift h' a = some s.heap) (hlaid : Laid entries h' g'.done)
    {bits : Bitset} (hlen : bits.length = s.linearized.length) (hbits : Holds bits g'.done)
    (hrange : g'.done ⊆ Finset.range (entries.length/2)) :
    Refines model entries
      (pushed s a bits g'.state h' ((left (placed entries) g'.done).map Prod.fst).head?)
      (g'::seen) g' (⟨g,heads (marks after)⟩::fs) (ids ++ [e.id]) []
      (left (placed entries) g'.done) where
  stack := by
    have := Stacked.push h.stack h.cursor h.calls hk hmove hunlift hlaid
    simpa [pushed, h.state] using this
  cursor := rfl
  calls x hx := absurd hx (by simp)
  entry := rfl
  head := h.head
  state := rfl
  linearized := hbits
  capacity := hlen ▸ h.capacity
  cache k c hc := by
    have hold : ∀ c ∈ s.cache k, ∃ d ∈ g'::seen, c.state = d.state ∧ Holds c.linearized d.done ∧
        c.linearized.length = bits.length ∧ d.done ⊆ Finset.range (entries.length/2) := by
      intro c hc
      obtain ⟨d,hd,hrest⟩ := h.cache k c hc
      exact ⟨d,List.mem_cons_of_mem _ hd,hlen ▸ hrest⟩
    by_cases hkey : k = CheckerBitset.hash bits
    · subst hkey
      simp only [pushed, Function.update_self, List.mem_append, List.mem_singleton] at hc
      rcases hc with hc | rfl
      · exact hold c hc
      · exact ⟨g',List.mem_cons_self,rfl,hbits,rfl,hrange⟩
    · simp only [pushed, Function.update_of_ne hkey] at hc
      exact hold c hc

/-- The branch of the loop for a call is a step of the search. -/
theorem call_step (hh : History entries) (hm : SoundEqual model) {s : Search S I O}
    {seen : List (Config ℕ S)} {g : Config ℕ S} {fs : List (Frame (Config ℕ S) ℕ)} {ids : List ℕ}
    {before after : List (ℕ × Entry I O)} {a : ℕ} {e : Entry I O}
    (h : Refines model entries s seen g fs ids before ((a,e)::after)) (hk : e.kind = .callEntry)
    (hg : ¬ Finished entries g.done) :
    ∃ c b s', s.heap[a]? = some c ∧ c.content.mate = some b ∧ tryCall model s a c b = some s' ∧
      s'.partials = s.partials ∧ ∃ seen' g' fs' ids' before' after',
        Step (configs model entries) Config.done (Finished entries)
          ⟨⟨g,heads (marks ((a,e)::after))⟩::fs,seen⟩ ⟨⟨g',heads (marks after')⟩::fs',seen'⟩ ∧
        Refines model entries s' seen' g' fs' ids' before' after' := by
  have hl := stacked_laid h.stack
  obtain ⟨c,b,m,r,input,output,hc,hcont,hnext,hmn,hr,hmark,hinput,houtput,hlegal⟩ :=
    call_nodes model hh hl h.cursor hk
  have hmate : c.content.mate = some b := by rw [hcont]
  have hid : c.content.id.toNat = e.id := by rw [hcont]; rfl
  have hin : asInput c.content.value = some input := by rw [hcont, hinput]
  have hmove : (configs model entries).move g e.id =
      (legal model entries g.state e.id).map (fun s => ⟨insert e.id g.done,s⟩) := rfl
  refine ⟨c,b,?_⟩
  rw [heads_call hk]
  cases hok : (model.step g.state input output).1 with
  | false =>
    rw [hlegal, hok] at hmove
    refine ⟨{ s with entry := c.next },hc,hmate,?_,rfl,seen,g,fs,ids,_,after,.blocked hg hmove,
      refines_next h hk hnext⟩
    simp [tryCall, hmn, hin, houtput, h.state, hok]
  | true =>
    rw [hlegal, hok] at hmove
    have hlt : e.id < 64*s.linearized.length := by
      have := hh.ids e (placed_mem (left_mem h.cursor).1)
      have := h.capacity
      omega
    obtain ⟨bits,hset,hlen,hbits⟩ := set_holds h.linearized hlt
    have hrange : insert e.id g.done ⊆ Finset.range (entries.length/2) :=
      Finset.insert_subset (Finset.mem_range.mpr (hh.ids e (placed_mem (left_mem h.cursor).1)))
        (walk_done hh (stacked_walk h.stack)).2.2
    cases hcc : cacheContains model s.cache ⟨bits,(model.step g.state input output).2⟩ with
    | true =>
      obtain ⟨d,hd,hcov⟩ := cached_covers (g := ⟨insert e.id g.done,_⟩) hm h.capacity h.cache hbits
        hrange hcc
      refine ⟨{ s with entry := c.next },hc,hmate,?_,rfl,seen,g,fs,ids,_,after,
        .known hg hmove hd hcov,refines_next h hk hnext⟩
      simp [tryCall, hmn, hin, houtput, h.state, hok, hid, hset, hcc]
    | false =>
      obtain ⟨h',hlift,hlaid,hunlift⟩ := lift_laid hh hl h.cursor hk hc hmate hr hmark
      obtain ⟨head,hhead,hheadnext⟩ := head_next hlaid
      have hstep : Step (configs model entries) Config.done (Finished entries)
          ⟨⟨g,e.id::heads (marks after)⟩::fs,seen⟩ _ := .enter hg hmove
      rw [moves_left] at hstep
      refine ⟨_,hc,hmate,?_,?_,_,_,_,_,_,_,hstep,
        refines_pushed h hk hmove hunlift hlaid hlen hbits hrange⟩
      · simp [tryCall, hmn, hin, houtput, h.state, hok, hid, hset, hcc, hlift, h.head, hhead,
          hheadnext, pushed]
      · rfl

end Mitdist.CheckerSearch
