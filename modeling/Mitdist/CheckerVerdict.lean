import Mitdist.CheckerSearch

/-!
# The verdict of the checker

`checkSingle` ends on every complete history. If it is not killed, it returns
true exactly if the history is linearizable. If it returns false, `longest`
has for every operation a longest partial linearization that includes it.
-/

set_option autoImplicit false

namespace Mitdist.CheckerVerdict
open Mitdist.LinkedCells Mitdist.CheckerBitset Mitdist.Checker Mitdist.CheckerLists
open Mitdist.MemoSearch Mitdist.IntervalHistory Mitdist.CheckerSearch
open scoped List

variable {S I O : Type} {model : Filled S I O} {entries : List (Entry I O)}

/-- The sequence recorded for the operation is at least so long. -/
def Reaches (p : Partials) (i k : ℕ) : Prop :=
  ∃ q seq, p.longest[i]? = some (some q) ∧ p.seqs[q]? = some seq ∧ k ≤ seq.length

theorem update_longest {seqs : List (List ℤ)} {seq : List ℤ} {new : ℕ}
    {longest : List (Option ℕ)} {j : ℕ} (hnew : seqs[new]? = some seq) (hj : j < longest.length)
    (hvalid : ∀ (i q : ℕ), longest[i]? = some (some q) → q < seqs.length) :
    ∃ l, updateLongest seqs new seq.length longest j = some l ∧ l.length = longest.length ∧
      (∀ (i q : ℕ), l[i]? = some (some q) → longest[i]? = some (some q) ∨ q = new ∧ i = j) ∧
      (∀ i k, Reaches ⟨longest,seqs⟩ i k → Reaches ⟨l,seqs⟩ i k) ∧
      Reaches ⟨l,seqs⟩ j seq.length := by
  have hset : ∀ i, (longest.set j (some new))[i]? = if i = j then some (some new)
      else longest[i]? := by
    intro i
    rw [List.getElem?_set]
    split_ifs <;> grind
  have hload : loadLongest longest j = longest[j]? := by simp [loadLongest]
  have hreach : Reaches ⟨longest.set j (some new),seqs⟩ j seq.length :=
    ⟨new,seq,by simp [hset],hnew,le_rfl⟩
  obtain ⟨cur,hcur⟩ : ∃ cur, longest[j]? = some cur := ⟨_,List.getElem?_eq_getElem hj⟩
  have hstore : ∀ (i q : ℕ), (longest.set j (some new))[i]? = some (some q) →
      longest[i]? = some (some q) ∨ q = new ∧ i = j := by
    intro i q h
    rw [hset] at h
    split_ifs at h with hi
    · exact .inr ⟨(by simpa using h.symm),hi⟩
    · exact .inl h
  cases cur with
  | none =>
    refine ⟨longest.set j (some new),by simp [updateLongest, hload, hcur],by simp,hstore,?_,hreach⟩
    rintro i k ⟨q,s,hq,hs,hk⟩
    have hij : i ≠ j := by
      rintro rfl
      simp [hcur] at hq
    exact ⟨q,s,by simpa [hset, hij] using hq,hs,hk⟩
  | some q =>
    obtain ⟨s,hs⟩ : ∃ s, seqs[q]? = some s := ⟨_,List.getElem?_eq_getElem (hvalid j q hcur)⟩
    by_cases hlt : seq.length > s.length
    · refine ⟨longest.set j (some new),by simp [updateLongest, hload, hcur, hs, hlt],by simp,hstore,
        ?_,hreach⟩
      rintro i k ⟨q',s',hq',hs',hk⟩
      by_cases hij : i = j
      · subst hij
        obtain rfl : q = q' := by simpa [hcur] using hq'
        obtain rfl := Option.some.inj (hs.symm.trans hs')
        exact ⟨new,seq,by simp [hset],hnew,by omega⟩
      · exact ⟨q',s',by simpa [hset, hij] using hq',hs',hk⟩
    · exact ⟨longest,by simp [updateLongest, hload, hcur, hs, hlt],rfl,fun i q h => .inl h,
        fun i k h => h,q,s,hcur,hs,by omega⟩

theorem update_all {seqs : List (List ℤ)} {seq : List ℤ} {new : ℕ} (hnew : seqs[new]? = some seq)
    (hlt : new < seqs.length) (js : List ℕ) (longest : List (Option ℕ))
    (hjs : ∀ j ∈ js, j < longest.length)
    (hvalid : ∀ (i q : ℕ), longest[i]? = some (some q) → q < seqs.length) :
    ∃ l, (asIds js).foldlM (updateLongest seqs new seq.length) longest = some l ∧
      l.length = longest.length ∧
      (∀ (i q : ℕ), l[i]? = some (some q) → longest[i]? = some (some q) ∨ q = new ∧ i ∈ js) ∧
      (∀ i k, Reaches ⟨longest,seqs⟩ i k → Reaches ⟨l,seqs⟩ i k) ∧
      ∀ j ∈ js, Reaches ⟨l,seqs⟩ j seq.length := by
  induction js generalizing longest with
  | nil => exact ⟨longest,rfl,rfl,fun i q h => .inl h,fun i k h => h,by simp⟩
  | cons j js ih =>
    obtain ⟨l₁,hl₁,hlen₁,hptr₁,hmono₁,hj₁⟩ :=
      update_longest hnew (hjs j List.mem_cons_self) hvalid
    obtain ⟨l,hl,hlen,hptr,hmono,hall⟩ := ih l₁
      (fun k hk => hlen₁ ▸ hjs k (List.mem_cons_of_mem _ hk)) (fun i q h => by
        rcases hptr₁ i q h with h | ⟨rfl,-⟩
        · exact hvalid i q h
        · exact hlt)
    refine ⟨l,by simpa [asIds, hl₁] using hl,hlen.trans hlen₁,fun i q h => ?_,
      fun i k h => hmono i k (hmono₁ i k h),fun k hk => ?_⟩
    · rcases hptr i q h with h | ⟨rfl,hi⟩
      · rcases hptr₁ i q h with h | ⟨rfl,rfl⟩
        · exact .inl h
        · exact .inr ⟨rfl,List.mem_cons_self⟩
      · exact .inr ⟨rfl,List.mem_cons_of_mem _ hi⟩
    · rcases List.mem_cons.mp hk with rfl | hk
      · exact hmono k _ hj₁
      · exact hall k hk

variable (model entries) in
/-- The sequences that are recorded are partial linearizations with the operation. -/
structure Sound (p : Partials) : Prop where
  length : p.longest.length = entries.length/2
  partials : ∀ (i q : ℕ), p.longest[i]? = some (some q) → ∃ os : List ℕ,
    p.seqs[q]? = some (asIds os) ∧ i ∈ os ∧
    Partial (entries.map mark) (legal model entries) model.init os

/-- Recording the calls keeps what was recorded or replaces it by a longer sequence. -/
theorem record_sound {h : Nodes I O} {calls : List (CallsEntry S)} {p : Partials} {ids : List ℕ}
    (hs : Sound model entries p) (hids : callIds h calls = some (asIds ids))
    (hlen : calls.length = ids.length) (hlt : ∀ i ∈ ids, i < entries.length/2)
    (hp : Partial (entries.map mark) (legal model entries) model.init ids) :
    ∃ p', recordPartial h calls p = some p' ∧ Sound model entries p' ∧
      (∀ i k, Reaches p i k → Reaches p' i k) ∧ ∀ i ∈ ids, Reaches p' i ids.length := by
  have hold : ∀ (q : ℕ) (t : List ℤ), p.seqs[q]? = some t →
      (p.seqs ++ [asIds ids])[q]? = some t := by
    intro q t ht
    rw [List.getElem?_append_left (List.getElem?_eq_some_iff.mp ht).1, ht]
  have hnew : (p.seqs ++ [asIds ids])[p.seqs.length]? = some (asIds ids) := by simp
  obtain ⟨l,hl,hll,hptr,hmono,hall⟩ := update_all hnew (by simp) ids p.longest
    (fun j hj => hs.length ▸ hlt j hj) (fun i q h => by
      obtain ⟨os,hos,-⟩ := hs.partials i q h
      exact (List.getElem?_eq_some_iff.mp (hold q _ hos)).1)
  rw [show (asIds ids).length = ids.length by simp [asIds]] at hl hall
  refine ⟨⟨l,p.seqs ++ [asIds ids]⟩,?_,⟨hll.trans hs.length,?_⟩,?_,hall⟩
  · simp [recordPartial, hids, hlen, hl]
  · intro i q h
    rcases hptr i q h with h | ⟨rfl,hi⟩
    · obtain ⟨os,hos,hrest⟩ := hs.partials i q h
      exact ⟨os,hold q _ hos,hrest⟩
    · exact ⟨ids,by simp,hi,hp⟩
  · rintro i k ⟨q,t,hq,ht,hk⟩
    exact hmono i k ⟨q,t,hq,hold q t ht,hk⟩

variable (model entries) in
/-- What the search has seen and left is recorded, if partial linearizations are
computed. -/
structure Kept (computePartial : Bool) (p : Partials) (a : State (Config ℕ S) ℕ) : Prop where
  sound : Sound model entries p
  seen : computePartial = true → ∀ c ∈ a.seen, (∃ f ∈ a.frames, f.place = c) ∨
    ∀ i ∈ c.done, Reaches p i c.done.card

variable (model entries) in
/-- The variables of the loop and the state of the search that they stand for. -/
def Simulates (computePartial : Bool) (s : Search S I O) (a : State (Config ℕ S) ℕ) : Prop :=
  Kept model entries computePartial s.partials a ∧ ∃ g fs ids before after,
    a.frames = ⟨g,heads (marks after)⟩::fs ∧
    Refines model entries s a.seen g fs ids before after

theorem kept_step {computePartial : Bool} {p : Partials} {g : Config ℕ S} {i : ℕ} {rest : List ℕ}
    {fs : List (Frame (Config ℕ S) ℕ)} {seen : List (Config ℕ S)} {a : State (Config ℕ S) ℕ}
    (h : Kept model entries computePartial p ⟨⟨g,i::rest⟩::fs,seen⟩)
    (hs : Step (configs model entries) Config.done (Finished entries) ⟨⟨g,i::rest⟩::fs,seen⟩ a) :
    Kept model entries computePartial p a := by
  refine ⟨h.sound,fun hp => ?_⟩
  have hseen := h.seen hp
  have hnext : ∀ c ∈ seen, (∃ f ∈ (⟨g,rest⟩ : Frame (Config ℕ S) ℕ)::fs, f.place = c) ∨
      ∀ i ∈ c.done, Reaches p i c.done.card := by
    intro c hc
    rcases hseen c hc with ⟨f,hf,rfl⟩ | hr
    · rcases List.mem_cons.mp hf with rfl | hf
      · exact .inl ⟨_,List.mem_cons_self,rfl⟩
      · exact .inl ⟨f,List.mem_cons_of_mem _ hf,rfl⟩
    · exact .inr hr
  cases hs with
  | blocked => exact hnext
  | known => exact hnext
  | enter =>
    intro c hc
    rcases List.mem_cons.mp hc with rfl | hc
    · exact .inl ⟨_,List.mem_cons_self,rfl⟩
    · rcases hnext c hc with ⟨f,hf,rfl⟩ | hr
      · exact .inl ⟨f,List.mem_cons_of_mem _ hf,rfl⟩
      · exact .inr hr

/-- The branch of the loop for a return records the calls and goes back to the
configuration before the last of them. -/
theorem back_step (hh : History entries) {computePartial : Bool} {s : Search S I O}
    {seen : List (Config ℕ S)} {g : Config ℕ S} {f : Frame (Config ℕ S) ℕ}
    {fs : List (Frame (Config ℕ S) ℕ)} {ids : List ℕ} {before after : List (ℕ × Entry I O)}
    (h : Refines model entries s seen g (f::fs) ids before after)
    (hkept : Kept model entries computePartial s.partials ⟨⟨g,[]⟩::f::fs,seen⟩) :
    ∃ s', backtrack computePartial s = some (.running s') ∧
      Simulates model entries computePartial s' ⟨f::fs,seen⟩ := by
  have hl := stacked_laid h.stack
  obtain ⟨hpartly,hdone,hrange⟩ := walk_done hh (stacked_walk h.stack)
  have hids : callIds s.heap s.calls = some (asIds ids) := by
    simpa using stacked_ids h.stack hl
  have hlen : s.calls.length = ids.length := by
    simpa using stacked_length h.stack
  have hcard : g.done.card = ids.length := by
    rw [hdone, List.toFinset_card_of_nodup hpartly.order.nodup]
  have hmem : ∀ i ∈ g.done, i ∈ ids := fun i hi => by simpa [hdone] using hi
  obtain ⟨p,hp,hsound,hseen⟩ : ∃ p, (if computePartial then recordPartial s.heap s.calls s.partials
      else some s.partials) = some p ∧ Sound model entries p ∧
      (computePartial = true → (∀ i k, Reaches s.partials i k → Reaches p i k) ∧
        ∀ i ∈ g.done, Reaches p i g.done.card) := by
    cases computePartial with
    | false => exact ⟨s.partials,rfl,hkept.sound,by simp⟩
    | true =>
      obtain ⟨p,hp,hsound,hmono,hall⟩ := record_sound hkept.sound hids hlen
        (fun i hi => Finset.mem_range.mp (hrange (by simpa [hdone] using hi))) hpartly
      exact ⟨p,hp,hsound,fun _ => ⟨hmono,fun i hi => hcard ▸ hall i (hmem i hi)⟩⟩
  obtain ⟨cs,ids₀,h₀,a,e,before₀,after₀,hcs,hrest,hs,hsplit,hcalls,hk,hmove,hunlift⟩ :=
    stacked_pop h.stack
  have hcalls' : s.calls = cs.reverse ++ [⟨a,f.place.state⟩] := by
    rw [← List.reverse_reverse s.calls, hcs, List.reverse_cons]
  obtain ⟨y,hy,hid⟩ := contents_id (left_mem hsplit).1
  obtain ⟨c,hc,rfl⟩ := laid_contents hl hy
  have hid : c.content.id.toNat = e.id := by simp [hid]
  obtain ⟨st,-,hg⟩ := Option.map_eq_some_iff.mp hmove
  have hgdone : g.done = insert e.id f.place.done := by rw [← hg]
  have hlt : e.id < 64*s.linearized.length := by
    have := Finset.mem_range.mp (hrange (hgdone ▸ Finset.mem_insert_self e.id f.place.done))
    have := h.capacity
    omega
  obtain ⟨bits,hclear,hbl,hbits⟩ := clear_holds h.linearized hlt
  rw [hgdone, Finset.erase_insert (left_mem hsplit).2] at hbits
  have hlinked : Linked h₀ ((entries.length::before₀.map Prod.fst) ++ a::after₀.map Prod.fst) := by
    simpa [hsplit] using (stacked_laid hs).linked
  obtain ⟨c₀,hc₀,-,hc₀next⟩ := linked_cell hlinked
  refine ⟨{ s with
      partials := p, entry := c₀.next, state := f.place.state, linearized := bits,
      calls := s.calls.dropLast, heap := h₀ },?_,⟨hsound,fun hcp c hc => ?_⟩,f.place,fs,ids₀,
    before₀ ++ [(a,e)],after₀,?_,?_⟩
  · have hlast : s.calls.getLast? = some ⟨a,f.place.state⟩ := by simp [hcalls']
    cases computePartial with
    | false =>
      obtain rfl := Option.some.inj hp
      simp [backtrack, hlast, hc, hid, hclear, hunlift, hc₀]
    | true =>
      have hp : recordPartial s.heap s.calls s.partials = some p := hp
      simp [backtrack, hlast, hp, hc, hid, hclear, hunlift, hc₀]
  · rcases hkept.seen hcp c hc with ⟨f',hf,rfl⟩ | hr
    · rcases List.mem_cons.mp hf with rfl | hf
      · exact .inr (hseen hcp).2
      · exact .inl ⟨f',hf,rfl⟩
    · exact .inr (fun i hi => (hseen hcp).1 i _ (hr i hi))
  · rw [← hrest]
  · exact {
      stack := by simpa [hcalls'] using hs
      cursor := by simp [hsplit]
      calls := fun x hx => by
        rcases List.mem_append.mp hx with hx | hx
        · exact hcalls x hx
        · obtain rfl := List.mem_singleton.mp hx
          exact hk
      entry := hc₀next
      head := h.head
      state := rfl
      linearized := hbits
      capacity := by rw [hbl]; exact h.capacity
      cache := by simpa only [hbl] using h.cache }

variable (model entries) in
/-- What an iteration of the loop can come to. -/
inductive Outcome (computePartial kill : Bool) (a : State (Config ℕ S) ℕ) :
    Iteration S I O → Prop
  | running {s : Search S I O} {a' : State (Config ℕ S) ℕ}
      (hstep : Step (configs model entries) Config.done (Finished entries) a a')
      (hs : Simulates model entries computePartial s a') :
      Outcome computePartial kill a (.running s)
  | accepted {os : List ℕ} {seqs : List (List ℤ)}
      (hp : Partial (entries.map mark) (legal model entries) model.init os)
      (hall : ∀ i, .call i ∈ entries.map mark → i ∈ os) :
      Outcome computePartial kill a (.returned true
        ⟨List.replicate (entries.length/2) (some seqs.length),seqs ++ [asIds os]⟩)
  | killed {p : Partials} (hk : kill = true) (hp : Sound model entries p) :
      Outcome computePartial kill a (.returned false p)
  | rejected {p : Partials} {seen : List (Config ℕ S)} (ha : a = ⟨[⟨root model,[]⟩],seen⟩)
      (hf : ¬ Finished entries ∅) (hp : Kept model entries computePartial p a) :
      Outcome computePartial kill a (.returned false p)

theorem finished_iff (hh : History entries) (done : Finset ℕ) :
    Finished entries done ↔ ∀ i, .call i ∈ entries.map mark → i ∈ done := by
  rw [← pending_nil hh.wellFormed, ← marks_placed, ← marks_left, Finished, marks,
    List.map_eq_nil_iff]

/-- A call that is left is not the last entry. -/
theorem calls_end (hh : History entries) {done : Finset ℕ} {before : List (ℕ × Entry I O)}
    (h : left (placed entries) done = before) (hb : ∀ x ∈ before, x.2.kind = .callEntry) :
    before = [] := by
  rcases List.eq_nil_or_concat' before with rfl | ⟨before,x,rfl⟩
  · rfl
  · have hlast : left (placed entries) done = before ++ (x.1,x.2)::[] := h
    obtain ⟨P₂,b,r,P₃,hnil,-⟩ := left_split (marks_placed entries ▸ hh.wellFormed)
      (hb x (by simp)) hlast
    simp at hnil

theorem iterate_outcome (hh : History entries) (hm : SoundEqual model) {computePartial : Bool}
    (kill : Bool) {s : Search S I O} {a : State (Config ℕ S) ℕ}
    (h : Simulates model entries computePartial s a) :
    ∃ r, iterate model computePartial kill s = some r ∧
      Outcome model entries computePartial kill a r := by
  obtain ⟨frames,seen⟩ := a
  obtain ⟨hkept,g,fs,ids,before,after,rfl,h⟩ := h
  have hl := stacked_laid h.stack
  obtain ⟨head,hhead,hnext⟩ := head_next hl
  rw [← h.head] at hhead
  by_cases hf : Finished entries g.done
  · obtain ⟨hpartly,hdone,-⟩ := walk_done hh (stacked_walk h.stack)
    have hids : callIds s.heap s.calls = some (asIds ids) := by
      simpa using stacked_ids h.stack hl
    have hnone : head.next = none := by rw [hnext, hf]; rfl
    refine ⟨_,?_,@Outcome.accepted _ _ _ _ _ _ _ _ _ s.partials.seqs hpartly ?_⟩
    · simp [iterate, hhead, hnone, hids, hkept.sound.length]
    · intro i hi
      simpa [hdone] using (finished_iff hh g.done).mp hf i hi
  · obtain ⟨n,hsome⟩ : ∃ n, head.next = some n := by
      rw [hnext]
      cases hleft : left (placed entries) g.done with
      | nil => exact absurd hleft hf
      | cons x l => exact ⟨x.1,rfl⟩
    cases kill with
    | true => exact ⟨_,by simp [iterate, hhead, hsome],.killed rfl hkept.sound⟩
    | false =>
      cases after with
      | nil =>
        have hb := calls_end hh (h.cursor.trans (List.append_nil before)) h.calls
        exact absurd (h.cursor.trans (by simp [hb])) hf
      | cons x after =>
        obtain ⟨a,e⟩ := x
        have hentry : s.entry = some a := h.entry
        cases hk : e.kind with
        | callEntry =>
          obtain ⟨c,b,s',hc,hmate,htry,hpart,seen',g',fs',ids',before',after',hstep,hr⟩ :=
            call_step hh hm h hk hf
          refine ⟨.running s',by simp [iterate, hhead, hsome, hentry, hc, hmate, htry],
            .running hstep ⟨?_,g',fs',ids',before',after',rfl,hr⟩⟩
          rw [hpart]
          rw [heads_call hk] at hkept hstep
          exact kept_step hkept hstep
        | returnEntry =>
          rw [heads_return hk] at hkept ⊢
          obtain ⟨c,hc,hcont⟩ := laid_contents hl (contents_return (left_mem h.cursor).1 hk)
          have hmate : c.content.mate = none := by rw [hcont]
          have hiter : iterate model computePartial false s = backtrack computePartial s := by
            simp [iterate, hhead, hsome, hentry, hc, hmate]
          cases fs with
          | nil =>
            obtain ⟨hcs,rfl⟩ := stacked_bottom h.stack
            have hcalls : s.calls = [] := by simpa using hcs
            exact ⟨_,by simp [hiter, backtrack, hcalls],.rejected rfl hf hkept⟩
          | cons f fs =>
            obtain ⟨s',hback,hsim⟩ := back_step hh h hkept
            exact ⟨_,hiter.trans hback,.running (.back hf) hsim⟩

variable (model entries) in
theorem start_simulates (computePartial : Bool) :
    ∃ s, start model entries = some s ∧ Simulates model entries computePartial s
      ⟨[⟨root model,(configs model entries).moves (root model)⟩],[]⟩ := by
  obtain ⟨l,hl,hlinked,hroot,hcontents,-⟩ := make_linked entries
  have hheap : l.heap.length = entries.length := by
    rw [← contents_of_length, ← hcontents, contents, List.length_map]
  have hlength : length l.heap l.root = some entries.length := by
    have := length_from_linked hlinked.cells l.heap.length
      (by simp [placed_length, hheap])
    rw [length, hroot, this, List.length_map, placed_length]
  obtain ⟨h,hins,hlink,hcont⟩ := insert_before_linked hlinked ⟨.nil,none,-1⟩
  rw [hheap] at hlink
  rw [← hroot] at hins
  have hlaid : Laid entries h ∅ := ⟨by simpa [left_empty] using hlink,hcontents ▸ hcont⟩
  have hmoves : (configs model entries).moves (root model) = heads (marks (placed entries)) := by
    rw [moves_left, show (root model).done = ∅ from rfl, left_empty]
  have hstart : start model entries = some {
      heap := h
      headEntry := l.heap.length
      entry := l.root
      linearized := newBitset (entries.length/2)
      cache := fun _ => []
      calls := []
      state := model.init
      partials := ⟨List.replicate (entries.length/2) none,[]⟩ } := by
    simp [start, hl, hlength, hins]
  refine ⟨_,hstart,⟨⟨by simp,by simp [List.getElem?_replicate]⟩,by simp⟩,root model,[],[],[],
    placed entries,by rw [hmoves],?_⟩
  exact {
    stack := .base hlaid
    cursor := left_empty _
    calls := by simp
    entry := hroot
    head := hheap
    state := rfl
    linearized := new_holds _
    capacity := new_length _
    cache := by simp }

variable (model entries) in
def Linearizable : Prop :=
  ∃ os, Partial (entries.map mark) (legal model entries) model.init os ∧
    ∀ i, .call i ∈ entries.map mark → i ∈ os

variable (model entries) in
/-- For every operation that a partial linearization includes, one that is at
least as long is recorded. -/
def Longest (p : Partials) : Prop :=
  ∀ os, Partial (entries.map mark) (legal model entries) model.init os →
    ∀ i ∈ os, Reaches p i os.length

theorem rejected_verdict (hh : History entries) {computePartial : Bool} {p : Partials}
    {seen : List (Config ℕ S)} (hf : ¬ Finished entries ∅)
    (hp : Kept model entries computePartial p ⟨[⟨root model,[]⟩],seen⟩)
    (he : Exploring (configs model entries) Config.done (Finished entries)
      ⟨[⟨root model,[]⟩],seen⟩) :
    ¬ Linearizable model entries ∧ (computePartial = true → Longest model entries p) := by
  constructor
  · rintro ⟨os,hos,hall⟩
    obtain ⟨g,hw,hdone⟩ := partial_walk hh.wellFormed.nodup hos
    refine (exhausted he hf hw).1 ((finished_iff hh g.done).mpr (fun i hi => ?_))
    simpa [hdone] using hall i hi
  · intro hcp os hos i hi
    obtain ⟨g,hw,hdone⟩ := partial_walk hh.wellFormed.nodup hos
    obtain ⟨c,hc,hcg⟩ := (exhausted he hf hw).2
    have hcd : c.done = os.toFinset := hcg.trans hdone
    have hroot : c ≠ root model := by
      rintro rfl
      have : i ∈ (root model).done := by rw [hcd]; simpa using hi
      simp [root] at this
    rcases hp.seen hcp c ((List.mem_cons.mp hc).resolve_left hroot) with ⟨f,hf,rfl⟩ | hr
    · obtain rfl := List.mem_singleton.mp hf
      exact absurd rfl hroot
    · have := hr i (by rw [hcd]; simpa using hi)
      rwa [hcd, List.toFinset_card_of_nodup hos.order.nodup] at this

theorem accepted_sound (hh : History entries) {os : List ℕ} (seqs : List (List ℤ))
    (hp : Partial (entries.map mark) (legal model entries) model.init os)
    (hall : ∀ i, .call i ∈ entries.map mark → i ∈ os) :
    Sound model entries
      ⟨List.replicate (entries.length/2) (some seqs.length),seqs ++ [asIds os]⟩ := by
  refine ⟨by simp,fun i q h => ⟨os,?_,?_,hp⟩⟩
  · obtain ⟨-,rfl⟩ : i < entries.length/2 ∧ seqs.length = q := by
      simpa [List.getElem?_replicate] using h
    simp
  · obtain ⟨hi,-⟩ : i < entries.length/2 ∧ seqs.length = q := by
      simpa [List.getElem?_replicate] using h
    exact hall i (hh.called i hi)

variable (model entries) in
structure Verdict (computePartial killed ok : Bool) (p : Partials) : Prop where
  sound : Sound model entries p
  accepted : ok = true → Linearizable model entries
  rejected : ok = false → killed = false → ¬ Linearizable model entries ∧
    (computePartial = true → Longest model entries p)

variable (model entries) in
def potential (a : State (Config ℕ S) ℕ) : ℕ :=
  weight ((entries.map mark).length+2) (rank (entries.map mark)) a.frames

variable (model entries) in
/-- A search that will end, with the right result. -/
structure Searching (computePartial : Bool) (s : Search S I O) (a : State (Config ℕ S) ℕ) :
    Prop where
  simulates : Simulates model entries computePartial s a
  exploring : Exploring (configs model entries) Config.done (Finished entries) a

theorem searching_iterate (hh : History entries) (hm : SoundEqual model) {computePartial : Bool}
    (kill : Bool) {s : Search S I O} {a : State (Config ℕ S) ℕ}
    (h : Searching model entries computePartial s a) :
    (∃ s' a', iterate model computePartial kill s = some (.running s') ∧
      Searching model entries computePartial s' a' ∧
      potential entries a' < potential entries a) ∨
    ∃ ok p, iterate model computePartial kill s = some (.returned ok p) ∧
      Verdict model entries computePartial kill ok p := by
  obtain ⟨r,hr,hout⟩ := iterate_outcome hh hm kill h.simulates
  cases hout with
  | @running s' a' hstep hs =>
    refine .inl ⟨s',a',hr,⟨hs,exploring_step h.exploring hstep⟩,?_⟩
    exact weight_descends _ _ (rank_move hh.wellFormed.nodup _) (moves_length _ _) h.exploring hstep
  | accepted hp hall =>
    exact .inr ⟨true,_,hr,accepted_sound hh _ hp hall,fun _ => ⟨_,hp,hall⟩,by simp⟩
  | killed hk hp => exact .inr ⟨false,_,hr,hp,by simp,by simp [hk]⟩
  | rejected ha hf hp =>
    subst ha
    exact .inr ⟨false,_,hr,hp.sound,by simp,fun _ _ => rejected_verdict hh hf hp h.exploring⟩

variable (model entries) in
theorem searching_start (computePartial : Bool) :
    ∃ s, start model entries = some s ∧ Searching model entries computePartial s
      ⟨[⟨root model,(configs model entries).moves (root model)⟩],[]⟩ := by
  obtain ⟨s,hs,hsim⟩ := start_simulates model entries computePartial
  exact ⟨s,hs,hsim,exploring_start _⟩

/-- The loop ends within as many iterations as the stack weighs. -/
theorem run_returns (hh : History entries) (hm : SoundEqual model) (computePartial : Bool)
    (kill : ℕ → Bool) (fuel k : ℕ) {s : Search S I O} {a : State (Config ℕ S) ℕ}
    (h : Searching model entries computePartial s a) (hf : potential entries a < fuel) :
    ∃ ok p j, runFrom model computePartial kill fuel k s = some (some (ok, p)) ∧
      Verdict model entries computePartial (kill j) ok p := by
  induction fuel generalizing k s a with
  | zero => omega
  | succ fuel ih =>
    rcases searching_iterate hh hm (kill k) h with ⟨s',a',hs',h',hlt⟩ | ⟨ok,p,hp,hv⟩
    · obtain ⟨ok,p,j,hrun,hv⟩ := ih (k+1) h' (by omega)
      exact ⟨ok,p,j,by simp [runFrom, hs', hrun],hv⟩
    · exact ⟨ok,p,k,by simp [runFrom, hp],hv⟩

theorem check_returns (hh : History entries) (hm : SoundEqual model) :
    ∃ bound, ∀ computePartial kill fuel, bound ≤ fuel → ∃ ok p j,
      checkSingle model entries computePartial kill fuel = some (some (ok, p)) ∧
      Verdict model entries computePartial (kill j) ok p := by
  refine ⟨potential entries ⟨[⟨root model,(configs model entries).moves (root model)⟩],[]⟩+1,
    fun computePartial kill fuel hf => ?_⟩
  obtain ⟨s,hs,h⟩ := searching_start model entries computePartial
  obtain ⟨ok,p,j,hrun,hv⟩ := run_returns hh hm computePartial kill fuel 0 h (by omega)
  exact ⟨ok,p,j,by simp [checkSingle, hs, hrun],hv⟩

end Mitdist.CheckerVerdict
