import Mitdist.ParallelChecker
import Mitdist.Progress

/-!
# Runs of the parallel check

Whatever the order of the goroutines and the main routine: the check never
faults, ends within a bound on the number of events, and returns the right
result. A result that a killed goroutine sends is never looked at.
-/

set_option autoImplicit false

namespace Mitdist.ParallelRuns
open Mitdist.Checker Mitdist.CheckerLists Mitdist.CheckerSearch Mitdist.CheckerVerdict
open Mitdist.CheckerHistories Mitdist.ParallelChecker Mitdist.MemoSearch
open Mitdist.TransitionSystem Mitdist.Progress

variable {S I O : Type} {model : Filled S I O} {computeInfo : Bool} {timeout : ℤ}
  {hs : List (List (Entry I O))}

variable (model) in
def firstState (entries : List (Entry I O)) : State (IntervalHistory.Config ℕ S) ℕ :=
  ⟨[⟨root model,(configs model entries).moves (root model)⟩],[]⟩

variable (model computeInfo) in
/-- A goroutine on its way to the verdict, with a bound on what is left to do. -/
inductive Good (entries : List (Entry I O)) (kill : Bool) : Routine S I O → ℕ → Prop
  | started : Good entries kill (.started entries) (potential entries (firstState model entries)+3)
  | searching {s : Search S I O} {a : State (IntervalHistory.Config ℕ S) ℕ}
      (h : Searching model entries computeInfo s a) :
      Good entries kill (.searching s) (potential entries a+2)
  | returned {ok killed : Bool} {p : Partials} (hk : killed = true → kill = true)
      (hv : Verdict model entries computeInfo killed ok p) : Good entries kill (.returned ok p) 1
  | ended : Good entries kill .ended 0

theorem good_kill {entries : List (Entry I O)} {kill : Bool} {r : Routine S I O} {k : ℕ}
    (h : Good model computeInfo entries kill r k) : Good model computeInfo entries true r k := by
  cases h with
  | started => exact .started
  | searching h => exact .searching h
  | returned _ hv => exact .returned (fun _ => rfl) hv
  | ended => exact .ended

/-- A goroutine that has not returned can go on, and comes closer to the end. -/
theorem good_advance (hm : SoundEqual model) {entries : List (Entry I O)} (hh : History entries)
    {kill : Bool} {r : Routine S I O} {k : ℕ} (h : Good model computeInfo entries kill r k)
    (hk : 1 < k) :
    ∃ r' k', advance model computeInfo kill r = some r' ∧ r' ≠ .ended ∧ k' < k ∧
      Good model computeInfo entries kill r' k' := by
  cases h with
  | started =>
    obtain ⟨s,hs,h⟩ := searching_start model entries computeInfo
    exact ⟨.searching s,_,by simp [advance, hs],by simp,by simp [firstState],.searching h⟩
  | @searching s a h =>
    rcases searching_iterate hh hm kill h with ⟨s',a',hs',h',hlt⟩ | ⟨ok,p,hp,hv⟩
    · exact ⟨.searching s',_,by simp [advance, hs'],by simp,by omega,.searching h'⟩
    · exact ⟨.returned ok p,1,by simp [advance, hp],by simp,hk,.returned (fun h => h) hv⟩
  | returned => omega
  | ended => omega

variable (model computeInfo hs) in
/-- The results that were sent, with the goroutines that sent them. -/
structure Sent (c : Parallel S I O) (sent : List (ℕ × Bool)) : Prop where
  nodup : (sent.map Prod.fst).Nodup
  ended : ∀ i, i ∈ sent.map Prod.fst ↔ c.routines[i]? = some .ended
  stored : ∀ x ∈ sent, ∃ entries p killed, hs[x.1]? = some entries ∧
    c.longest[x.1]? = some (some p) ∧ (killed = true → c.kill = true) ∧
    Verdict model entries computeInfo killed x.2 p
  results : c.results = (sent.drop c.count).map Prod.snd
  count : c.count ≤ sent.length

variable (model computeInfo timeout hs) in
structure Inv (c : Parallel S I O) (ranks : List ℕ) (sent : List (ℕ × Bool)) : Prop where
  channel : Sent model computeInfo hs c sent
  routinesLength : c.routines.length = hs.length
  ranksLength : ranks.length = hs.length
  longestLength : c.longest.length = hs.length
  good : ∀ (i : ℕ) entries r k, hs[i]? = some entries → c.routines[i]? = some r →
    ranks[i]? = some k → Good model computeInfo entries c.kill r k
  panicked : c.panicked = false
  selecting : c.phase = .selecting → c.kill = false ∧ c.timedOut = false ∧
    (c.ok = true → ∀ x ∈ sent.take c.count, x.2 = true) ∧ (c.count < hs.length ∨ hs = [])
  failed : c.ok = false → ∃ entries ∈ hs, ¬ Linearizable model entries
  passed : c.phase ≠ .selecting → c.ok = true → c.timedOut = false →
    ∀ entries ∈ hs, Linearizable model entries
  waiting : c.phase = .waiting → computeInfo = true
  finished : c.phase = .finished → computeInfo = true → c.count = hs.length
  killed : c.kill = true → c.timedOut = true ∨ computeInfo = false
  timedOut : c.timedOut = true → 0 < timeout

def mainRank (n : ℕ) (c : Parallel S I O) : ℕ :=
  match c.phase with
  | .selecting => n-c.count+2
  | .waiting => n-c.count+1
  | .finished => 0

theorem sum_set_lt {l : List ℕ} {i k k' : ℕ} (h : l[i]? = some k) (hlt : k' < k) :
    (l.set i k').sum < l.sum := by
  induction l generalizing i with
  | nil => simp at h
  | cons x l ih =>
    cases i with
    | zero =>
      obtain rfl : x = k := by simpa using h
      simpa using hlt
    | succ i =>
      have := ih (i := i) (by simpa using h)
      simpa using this

theorem sent_within {c : Parallel S I O} {sent : List (ℕ × Bool)}
    (h : Sent model computeInfo hs c sent) :
    (sent.map Prod.fst).toFinset ⊆ Finset.range hs.length := by
  intro i hi
  obtain ⟨x,hx,rfl⟩ := List.mem_map.mp (List.mem_toFinset.mp hi)
  obtain ⟨entries,_,_,hentries,-⟩ := h.stored x hx
  exact Finset.mem_range.mpr (List.getElem?_eq_some_iff.mp hentries).1

theorem sent_bound {c : Parallel S I O} {sent : List (ℕ × Bool)}
    (h : Sent model computeInfo hs c sent) : sent.length ≤ hs.length := by
  have := Finset.card_le_card (sent_within h)
  rwa [List.toFinset_card_of_nodup h.nodup, List.length_map, Finset.card_range] at this

/-- All goroutines have sent their results. -/
theorem sent_all {c : Parallel S I O} {sent : List (ℕ × Bool)}
    (h : Sent model computeInfo hs c sent) (hlen : hs.length ≤ sent.length) {i : ℕ}
    (hi : i < hs.length) : ∃ b, (i,b) ∈ sent := by
  have heq := Finset.eq_of_subset_of_card_le (sent_within h)
    (by rwa [List.toFinset_card_of_nodup h.nodup, List.length_map, Finset.card_range])
  have hin : i ∈ (sent.map Prod.fst).toFinset := heq ▸ Finset.mem_range.mpr hi
  obtain ⟨⟨j,b⟩,hx,rfl⟩ := List.mem_map.mp (List.mem_toFinset.mp hin)
  exact ⟨b,hx⟩

variable (model computeInfo timeout hs) in
/-- The state is sound, and at most so many events can follow. -/
def Bounded (c : Parallel S I O) (m : ℕ) : Prop :=
  ∃ ranks sent, Inv model computeInfo timeout hs c ranks sent ∧
    ranks.sum+mainRank hs.length c = m

variable (model computeInfo timeout hs) in
theorem bounded_start : ∃ m, Bounded model computeInfo timeout hs (checkParallel hs) m := by
  refine ⟨_,hs.map (fun entries => potential entries (firstState model entries)+3),[],?_,rfl⟩
  exact {
    channel := ⟨by simp,by simp [checkParallel],by simp,rfl,le_rfl⟩
    routinesLength := by simp [checkParallel]
    ranksLength := by simp
    longestLength := by simp [checkParallel]
    good := by
      intro i entries r k hi hr hk
      obtain rfl : Routine.started entries = r := by simpa [checkParallel, hi] using hr
      obtain rfl : potential entries (firstState model entries)+3 = k := by simpa [hi] using hk
      exact .started
    panicked := rfl
    selecting := by
      intro _
      refine ⟨rfl,rfl,by simp,?_⟩
      cases hs <;> simp [checkParallel]
    failed := by simp [checkParallel]
    passed := fun h => absurd rfl h
    waiting := by simp [checkParallel]
    finished := by simp [checkParallel]
    killed := by simp [checkParallel]
    timedOut := by simp [checkParallel] }

section

variable {c c' : Parallel S I O} {m : ℕ} {ranks : List ℕ} {sent : List (ℕ × Bool)}

/-- A goroutine that goes on with its search. -/
theorem inv_advance (h : Inv model computeInfo timeout hs c ranks sent) {i k : ℕ}
    {entries : List (Entry I O)} {r r' : Routine S I O} (hi : hs[i]? = some entries)
    (hr : c.routines[i]? = some r) (hne : r ≠ .ended) (hne' : r' ≠ .ended)
    (hg : Good model computeInfo entries c.kill r' k) :
    Inv model computeInfo timeout hs { c with routines := c.routines.set i r' } (ranks.set i k)
      sent := by
  have hlt := (List.getElem?_eq_some_iff.mp hr).1
  have hget : ∀ j, (c.routines.set i r')[j]? = if i = j then some r' else c.routines[j]? := by
    intro j
    rw [List.getElem?_set]
    grind
  exact {
    channel := {
      nodup := h.channel.nodup
      ended := by
        intro j
        rw [h.channel.ended, hget]
        split_ifs with hij
        · subst hij
          simp [hr, hne, hne']
        · rfl
      stored := h.channel.stored
      results := h.channel.results
      count := h.channel.count }
    routinesLength := by simpa using h.routinesLength
    ranksLength := by simpa using h.ranksLength
    longestLength := h.longestLength
    good := by
      intro j entries' r'' k'' hj hr'' hk''
      rw [hget] at hr''
      rw [List.getElem?_set] at hk''
      split_ifs at hr'' with hij
      · subst hij
        obtain rfl := Option.some.inj (hi.symm.trans hj)
        have hik : i < ranks.length := h.ranksLength ▸ h.routinesLength ▸ hlt
        obtain rfl : k = k'' := by simpa [hik] using hk''
        exact Option.some.inj hr'' ▸ hg
      · simp only [hij, if_false] at hk''
        exact h.good j entries' r'' k'' hj hr'' hk''
    panicked := h.panicked
    selecting := h.selecting
    failed := h.failed
    passed := h.passed
    waiting := h.waiting
    finished := h.finished
    killed := h.killed
    timedOut := h.timedOut }

/-- A goroutine that sends its result. -/
theorem inv_send (h : Inv model computeInfo timeout hs c ranks sent) {i : ℕ}
    {entries : List (Entry I O)} {ok killed : Bool} {p : Partials} (hi : hs[i]? = some entries)
    (hr : c.routines[i]? = some (.returned ok p)) (hk : killed = true → c.kill = true)
    (hv : Verdict model entries computeInfo killed ok p) :
    Inv model computeInfo timeout hs { c with
      longest := c.longest.set i (some p)
      results := c.results ++ [ok]
      routines := c.routines.set i .ended } (ranks.set i 0) (sent ++ [(i,ok)]) := by
  have hlt := (List.getElem?_eq_some_iff.mp hr).1
  have hget : ∀ j, (c.routines.set i .ended)[j]? = if i = j then some .ended
      else c.routines[j]? := by
    intro j
    rw [List.getElem?_set]
    grind
  have hfresh : i ∉ sent.map Prod.fst := by
    rw [h.channel.ended, hr]
    simp
  have hcount := h.channel.count
  exact {
    channel := {
      nodup := by
        rw [List.map_append]
        exact h.channel.nodup.append (by simp) (by simpa using hfresh)
      ended := by
        intro j
        rw [List.map_append, List.mem_append, h.channel.ended, hget]
        split_ifs with hij
        · simp [hij]
        · simp [Ne.symm hij]
      stored := by
        intro x hx
        rcases List.mem_append.mp hx with hx | hx
        · have hne : i ≠ x.1 := fun heq => hfresh (heq ▸ List.mem_map_of_mem hx)
          obtain ⟨entries',p',killed',hs',hl',hrest⟩ := h.channel.stored x hx
          exact ⟨entries',p',killed',hs',(List.getElem?_set_ne hne).trans hl',hrest⟩
        · obtain rfl := List.mem_singleton.mp hx
          refine ⟨entries,p,killed,hi,?_,hk,hv⟩
          rw [List.getElem?_set_self (h.longestLength ▸ h.routinesLength ▸ hlt)]
      results := by
        rw [h.channel.results, List.drop_append_of_le_length hcount, List.map_append]
        rfl
      count := hcount.trans (by simp) }
    routinesLength := by simpa using h.routinesLength
    ranksLength := by simpa using h.ranksLength
    longestLength := by simpa using h.longestLength
    good := by
      intro j entries' r'' k'' hj hr'' hk''
      rw [hget] at hr''
      rw [List.getElem?_set] at hk''
      split_ifs at hr'' with hij
      · subst hij
        have hik : i < ranks.length := h.ranksLength ▸ h.routinesLength ▸ hlt
        obtain rfl : 0 = k'' := by simpa [hik] using hk''
        exact Option.some.inj hr'' ▸ .ended
      · simp only [hij, if_false] at hk''
        exact h.good j entries' r'' k'' hj hr'' hk''
    panicked := h.panicked
    selecting := by
      rw [List.take_append_of_le_length hcount]
      exact h.selecting
    failed := h.failed
    passed := h.passed
    waiting := h.waiting
    finished := h.finished
    killed := h.killed
    timedOut := h.timedOut }

theorem routine_index (h : Inv model computeInfo timeout hs c ranks sent) {i : ℕ}
    {r : Routine S I O} (hr : c.routines[i]? = some r) :
    ∃ entries k, hs[i]? = some entries ∧ ranks[i]? = some k ∧
      Good model computeInfo entries c.kill r k := by
  have hlt := (List.getElem?_eq_some_iff.mp hr).1
  have hi := List.getElem?_eq_getElem (h.routinesLength ▸ hlt)
  have hk := List.getElem?_eq_getElem (h.ranksLength ▸ h.routinesLength ▸ hlt)
  exact ⟨_,_,hi,hk,h.good i _ r _ hi hr hk⟩

theorem sent_ended (h : Inv model computeInfo timeout hs c ranks sent) {i : ℕ}
    {r : Routine S I O} (hr : c.routines[i]? = some r) (hne : r ≠ .ended) :
    c.results.length < c.routines.length := by
  have hlt := (List.getElem?_eq_some_iff.mp hr).1
  have hbound := sent_bound h.channel
  have hresults : c.results.length ≤ sent.length := by simp [h.channel.results]
  by_contra hfull
  obtain ⟨b,hb⟩ := sent_all h.channel (by have := h.routinesLength; omega)
    (h.routinesLength ▸ hlt)
  have := (h.channel.ended i).mp (List.mem_map_of_mem hb)
  exact hne (Option.some.inj (hr.symm.trans this))

/-- A step of a goroutine never faults, and comes closer to the end. -/
theorem routine_step (hm : SoundEqual model) (hh : ∀ entries ∈ hs, History entries)
    (h : Inv model computeInfo timeout hs c ranks sent) {i : ℕ} {r : Routine S I O}
    (hr : c.routines[i]? = some r) (hne : r ≠ .ended) :
    ∃ c' ranks' sent', Inv model computeInfo timeout hs c' ranks' sent' ∧
      step model computeInfo timeout c (.routine i) = some c' ∧ c'.count = c.count ∧
      c'.phase = c.phase ∧ ranks'.sum < ranks.sum := by
  obtain ⟨entries,k,hi,hk,hg⟩ := routine_index h hr
  have hroom := sent_ended h hr hne
  by_cases hpos : 1 < k
  · obtain ⟨r',k',hadv,hne',hlt,hg'⟩ := good_advance hm (hh _ (List.mem_of_getElem? hi)) hg hpos
    refine ⟨_,_,_,inv_advance h hi hr hne hne' hg',?_,rfl,rfl,sum_set_lt hk hlt⟩
    cases hg with
    | started => simp [step, h.panicked, hr, hadv]
    | searching => simp [step, h.panicked, hr, hadv]
    | returned => omega
    | ended => omega
  · cases hg with
    | started => omega
    | searching => omega
    | returned hkill hv =>
      exact ⟨_,_,_,inv_send h hi hr hkill hv,by simp [step, h.panicked, hr, hroom],rfl,rfl,
        sum_set_lt hk Nat.zero_lt_one⟩
    | ended => exact absurd rfl hne

theorem leave_waiting (h : leaveLoop computeInfo = .waiting) : computeInfo = true := by
  cases computeInfo <;> simp_all [leaveLoop]

theorem leave_finished (h : leaveLoop computeInfo = .finished) : computeInfo = false := by
  cases computeInfo <;> simp_all [leaveLoop]

theorem leave_selecting : leaveLoop computeInfo ≠ .selecting := by
  cases computeInfo <;> simp [leaveLoop]

/-- The first result on the channel, and the goroutine that sent it. -/
theorem next_result (h : Sent model computeInfo hs c sent) {result : Bool} {rest : List Bool}
    (hres : c.results = result::rest) :
    ∃ j, sent[c.count]? = some (j,result) ∧ rest = (sent.drop (c.count+1)).map Prod.snd ∧
      c.count < sent.length := by
  have hlt : c.count < sent.length := by
    by_contra hge
    have := h.results
    rw [hres, List.drop_of_length_le (by omega)] at this
    simp at this
  have hdrop := h.results
  rw [hres, List.drop_eq_getElem_cons hlt, List.map_cons] at hdrop
  obtain ⟨hhead,hrest⟩ := List.cons.inj hdrop
  refine ⟨sent[c.count].1,?_,hrest,hlt⟩
  rw [List.getElem?_eq_getElem hlt, hhead]

theorem sent_pop (h : Sent model computeInfo hs c sent) {result : Bool} {rest : List Bool}
    (hres : c.results = result::rest) (c' : Parallel S I O) (hroutines : c'.routines = c.routines)
    (hlongest : c'.longest = c.longest) (hkill : c.kill = true → c'.kill = true)
    (hrest : c'.results = rest) (hcount : c'.count = c.count+1) :
    Sent model computeInfo hs c' sent := by
  obtain ⟨-,-,hdrop,hlt⟩ := next_result h hres
  refine ⟨h.nodup,hroutines ▸ h.ended,fun x hx => ?_,?_,?_⟩
  · obtain ⟨entries,p,killed,hi,hl,hk,hv⟩ := h.stored x hx
    exact ⟨entries,p,killed,hi,hlongest ▸ hl,fun h => hkill (hk h),hv⟩
  · rw [hrest, hcount, hdrop]
  · omega

/-- All results have come, and none was false. -/
theorem all_passed (h : Sent model computeInfo hs c sent) (hall : ∀ x ∈ sent, x.2 = true)
    (hlen : hs.length ≤ sent.length) : ∀ entries ∈ hs, Linearizable model entries := by
  intro entries hentries
  obtain ⟨i,hi,hget⟩ := List.getElem_of_mem hentries
  obtain ⟨b,hb⟩ := sent_all h hlen hi
  obtain ⟨entries',p,killed,hi',-,-,hv⟩ := h.stored _ hb
  obtain rfl : entries = entries' := by simpa [List.getElem?_eq_getElem hi, hget] using hi'
  exact hv.accepted (hall _ hb)

/-- The main routine receives a result in its loop. -/
theorem inv_receive (h : Inv model computeInfo timeout hs c ranks sent)
    (hphase : c.phase = .selecting) {result : Bool} {rest : List Bool}
    (hres : c.results = result::rest) (kill : Bool) (phase : Phase)
    (hkill : kill = true → computeInfo = false)
    (hnext : phase = .selecting ∧ kill = false ∧ c.count+1 < hs.length ∨
      phase = leaveLoop computeInfo ∧ ((c.ok && result) = false ∨ hs.length ≤ c.count+1)) :
    Inv model computeInfo timeout hs { c with
      results := rest, count := c.count+1, ok := c.ok && result, kill := kill, phase := phase }
      ranks sent := by
  obtain ⟨hck,hct,hok,-⟩ := h.selecting hphase
  obtain ⟨j,hj,-,hlt⟩ := next_result h.channel hres
  have htake : (c.ok && result) = true → ∀ x ∈ sent.take (c.count+1), x.2 = true := by
    intro hand x hx
    obtain ⟨hco,hr⟩ := Bool.and_eq_true_iff.mp hand
    rw [List.take_add_one, hj] at hx
    rcases List.mem_append.mp hx with hx | hx
    · exact hok hco x hx
    · obtain rfl : x = (j,result) := by simpa using hx
      exact hr
  exact {
    channel := sent_pop h.channel hres _ rfl rfl (by simp [hck]) rfl rfl
    routinesLength := h.routinesLength
    ranksLength := h.ranksLength
    longestLength := h.longestLength
    good := by
      intro i entries r k hi hr hk
      have hg := h.good i entries r k hi hr hk
      cases kill with
      | true => exact good_kill hg
      | false => exact hck ▸ hg
    panicked := h.panicked
    selecting := by
      intro hsel
      rcases hnext with ⟨-,hk,hlen⟩ | ⟨rfl,-⟩
      · exact ⟨hk,hct,htake,.inl hlen⟩
      · exact absurd hsel leave_selecting
    failed := by
      intro hand
      cases hco : c.ok with
      | false => exact h.failed hco
      | true =>
        obtain rfl : result = false := by simpa [hco] using hand
        obtain ⟨entries,p,killed,hi,-,hk,hv⟩ := h.channel.stored _ (List.mem_of_getElem? hj)
        have hkilled : killed = false := by
          cases killed
          · rfl
          · simp [hck] at hk
        exact ⟨entries,List.mem_of_getElem? hi,(hv.rejected rfl hkilled).1⟩
    passed := by
      intro hsel hand _
      rcases hnext with ⟨hp,-⟩ | ⟨-,hfail | hlen⟩
      · exact absurd hp hsel
      · simp [hfail] at hand
      · have hbound := sent_bound h.channel
        have hfull : sent.take (c.count+1) = sent := List.take_of_length_le (by omega)
        exact all_passed h.channel (hfull ▸ htake hand) (by omega)
    waiting := by
      intro hw
      rcases hnext with ⟨hp,-⟩ | ⟨hp,-⟩
      · simp [hp] at hw
      · exact leave_waiting (hp ▸ hw)
    finished := by
      intro hf hci
      rcases hnext with ⟨hp,-⟩ | ⟨hp,-⟩
      · simp [hp] at hf
      · simp [leave_finished (hp ▸ hf)] at hci
    killed := fun hk => .inr (hkill hk)
    timedOut := h.timedOut }

theorem inv_timeout (h : Inv model computeInfo timeout hs c ranks sent) (ht : 0 < timeout) :
    Inv model computeInfo timeout hs { c with
      timedOut := true, kill := true, phase := leaveLoop computeInfo } ranks sent where
  channel := {
    nodup := h.channel.nodup
    ended := h.channel.ended
    stored := fun x hx => by
      obtain ⟨entries,p,killed,hi,hl,-,hv⟩ := h.channel.stored x hx
      exact ⟨entries,p,killed,hi,hl,fun _ => rfl,hv⟩
    results := h.channel.results
    count := h.channel.count }
  routinesLength := h.routinesLength
  ranksLength := h.ranksLength
  longestLength := h.longestLength
  good i entries r k hi hr hk := good_kill (h.good i entries r k hi hr hk)
  panicked := h.panicked
  selecting hsel := absurd hsel leave_selecting
  failed := h.failed
  passed _ _ ht := absurd ht (by simp)
  waiting hw := leave_waiting hw
  finished hf hci := absurd hci (by simp [leave_finished hf])
  killed _ := .inl rfl
  timedOut _ := ht

theorem inv_wait (h : Inv model computeInfo timeout hs c ranks sent) (hphase : c.phase = .waiting)
    {result : Bool} {rest : List Bool} (hres : c.results = result::rest) :
    Inv model computeInfo timeout hs { c with results := rest, count := c.count+1 } ranks sent where
  channel := sent_pop h.channel hres _ rfl rfl (fun hk => hk) rfl rfl
  routinesLength := h.routinesLength
  ranksLength := h.ranksLength
  longestLength := h.longestLength
  good := h.good
  panicked := h.panicked
  selecting hsel := by simp [hphase] at hsel
  failed := h.failed
  passed := h.passed
  waiting := h.waiting
  finished hf := by simp [hphase] at hf
  killed := h.killed
  timedOut := h.timedOut

theorem inv_finish (h : Inv model computeInfo timeout hs c ranks sent) (hphase : c.phase = .waiting)
    (hcount : ¬ c.count < hs.length) :
    Inv model computeInfo timeout hs { c with phase := .finished } ranks sent where
  channel := ⟨h.channel.nodup,h.channel.ended,h.channel.stored,h.channel.results,h.channel.count⟩
  routinesLength := h.routinesLength
  ranksLength := h.ranksLength
  longestLength := h.longestLength
  good := h.good
  panicked := h.panicked
  selecting hsel := by simp at hsel
  failed := h.failed
  passed _ := h.passed (by simp [hphase])
  waiting hw := by simp at hw
  finished _ _ := by
    have := sent_bound h.channel
    have := h.channel.count
    simp only
    omega
  killed := h.killed
  timedOut := h.timedOut

theorem receive_step (h : Inv model computeInfo timeout hs c ranks sent)
    (hphase : c.phase = .selecting) {result : Bool} {rest : List Bool}
    (hres : c.results = result::rest) :
    ∃ c', Inv model computeInfo timeout hs c' ranks sent ∧
      step model computeInfo timeout c .receive = some c' ∧
      mainRank hs.length c' < mainRank hs.length c := by
  obtain ⟨hck,-,-,-⟩ := h.selecting hphase
  obtain ⟨-,-,-,hlt⟩ := next_result h.channel hres
  have hbound := sent_bound h.channel
  have hleave : ∀ d : Parallel S I O, d.phase = leaveLoop computeInfo → d.count = c.count+1 →
      mainRank hs.length d < mainRank hs.length c := by
    intro d hp hcount
    cases computeInfo <;> simp [mainRank, hp, leaveLoop, hphase, hcount]
    omega
  by_cases hstop : (!(c.ok && result) && !computeInfo) = true
  · obtain ⟨hfail,hci⟩ := Bool.and_eq_true_iff.mp hstop
    refine ⟨_,inv_receive h hphase hres true (leaveLoop computeInfo)
      (fun _ => by simpa using hci)
      (.inr ⟨rfl,.inl (by simpa only [Bool.not_eq_true'] using hfail)⟩),
      ?_,hleave _ rfl rfl⟩
    simp only [step, h.panicked, hphase, hres, hstop]
    simp
  · by_cases hall : c.count+1 ≥ c.routines.length
    · refine ⟨_,inv_receive h hphase hres c.kill (leaveLoop computeInfo)
        (by simp [hck]) (.inr ⟨rfl,.inr (h.routinesLength ▸ hall)⟩),?_,hleave _ rfl rfl⟩
      simp only [step, h.panicked, hphase, hres, if_neg hstop, if_pos hall]
      simp
    · refine ⟨_,inv_receive h hphase hres c.kill c.phase
        (by simp [hck]) (.inl ⟨hphase,hck,by have := h.routinesLength; omega⟩),?_,?_⟩
      · simp only [step, h.panicked, hphase, hres, if_neg hstop, if_neg hall]
        simp
      · simp only [mainRank, hphase]
        omega

theorem timeout_step (h : Inv model computeInfo timeout hs c ranks sent)
    (hphase : c.phase = .selecting) (ht : 0 < timeout) :
    ∃ c', Inv model computeInfo timeout hs c' ranks sent ∧
      step model computeInfo timeout c .timeout = some c' ∧
      mainRank hs.length c' < mainRank hs.length c := by
  refine ⟨_,inv_timeout h ht,?_,?_⟩
  · simp [step, h.panicked, hphase, ht]
  · cases computeInfo <;> simp [mainRank, leaveLoop, hphase]

theorem wait_step (h : Inv model computeInfo timeout hs c ranks sent) (hphase : c.phase = .waiting)
    (hres : c.count < hs.length → c.results ≠ []) :
    ∃ c', Inv model computeInfo timeout hs c' ranks sent ∧
      step model computeInfo timeout c .wait = some c' ∧
      mainRank hs.length c' < mainRank hs.length c := by
  by_cases hcount : c.count < hs.length
  · obtain ⟨result,rest,hres⟩ := List.exists_cons_of_ne_nil (hres hcount)
    refine ⟨_,inv_wait h hphase hres,?_,?_⟩
    · simp [step, h.panicked, hphase, hres, h.routinesLength, hcount]
    · simp only [mainRank, hphase]
      omega
  · refine ⟨_,inv_finish h hphase hcount,?_,?_⟩
    · simp [step, h.panicked, hphase, h.routinesLength, hcount]
    · simp [mainRank, hphase]

/-- Every event keeps the state sound and comes closer to the end. -/
theorem bounded_step (hm : SoundEqual model) (hh : ∀ entries ∈ hs, History entries)
    (h : Bounded model computeInfo timeout hs c m) (e : ParallelChecker.Event)
    (hs' : step model computeInfo timeout c e = some c') :
    ∃ k, k < m ∧ Bounded model computeInfo timeout hs c' k := by
  obtain ⟨ranks,sent,h,rfl⟩ := h
  have hmain : ∀ d, Inv model computeInfo timeout hs d ranks sent →
      step model computeInfo timeout c e = some d → mainRank hs.length d < mainRank hs.length c →
      ∃ k, k < ranks.sum+mainRank hs.length c ∧ Bounded model computeInfo timeout hs c' k := by
    intro d hd hstep hlt
    obtain rfl := Option.some.inj (hs'.symm.trans hstep)
    exact ⟨_,by omega,ranks,sent,hd,rfl⟩
  cases e with
  | routine i =>
    cases hr : c.routines[i]? with
    | none => simp [step, hr] at hs'
    | some r =>
      have hne : r ≠ .ended := by
        rintro rfl
        simp [step, hr] at hs'
      obtain ⟨d,ranks',sent',hd,hstep,hcount,hphase,hlt⟩ :=
        routine_step hm hh h hr hne
      obtain rfl := Option.some.inj (hs'.symm.trans hstep)
      refine ⟨_,?_,ranks',sent',hd,rfl⟩
      simp only [mainRank, hcount, hphase]
      omega
  | receive =>
    have hphase : c.phase = .selecting := by
      by_contra hne
      simp [step, hne] at hs'
    cases hres : c.results with
    | nil => simp [step, hres] at hs'
    | cons result rest =>
      obtain ⟨d,hd,hstep,hlt⟩ := receive_step h hphase hres
      exact hmain d hd hstep hlt
  | timeout =>
    have hphase : c.phase = .selecting := by
      by_contra hne
      simp [step, hne] at hs'
    have ht : 0 < timeout := by
      by_contra hle
      simp [step, Int.not_lt.mp hle] at hs'
    obtain ⟨d,hd,hstep,hlt⟩ := timeout_step h hphase ht
    exact hmain d hd hstep hlt
  | wait =>
    have hphase : c.phase = .waiting := by
      by_contra hne
      simp [step, hne] at hs'
    obtain ⟨d,hd,hstep,hlt⟩ := wait_step h hphase (fun hcount hnil => by
      simp [step, hnil, h.routinesLength, hcount] at hs')
    exact hmain d hd hstep hlt

/-- The check goes on until it has returned, unless it waits for the result of
none of no partitions. -/
theorem not_stuck (hm : SoundEqual model) (hh : ∀ entries ∈ hs, History entries)
    (h : Inv model computeInfo timeout hs c ranks sent) (hphase : c.phase ≠ .finished)
    (hsome : hs ≠ [] ∨ 0 < timeout) :
    ∃ e c', step model computeInfo timeout c e = some c' := by
  by_cases hrun : ∃ (i : ℕ) (r : Routine S I O), c.routines[i]? = some r ∧ r ≠ .ended
  · obtain ⟨i,r,hr,hne⟩ := hrun
    obtain ⟨c',_,_,-,hstep,-⟩ := routine_step hm hh h hr hne
    exact ⟨_,c',hstep⟩
  have hall : hs.length ≤ sent.length := by
    have hsub : Finset.range hs.length ⊆ (sent.map Prod.fst).toFinset := by
      intro i hi
      rw [List.mem_toFinset, h.channel.ended]
      have hlt : i < c.routines.length := h.routinesLength ▸ Finset.mem_range.mp hi
      by_contra hne
      exact hrun ⟨i,_,List.getElem?_eq_getElem hlt,fun hend =>
        hne ((List.getElem?_eq_getElem hlt).trans (congrArg some hend))⟩
    have := Finset.card_le_card hsub
    rwa [List.toFinset_card_of_nodup h.channel.nodup, List.length_map, Finset.card_range] at this
  have hready : c.count < hs.length → c.results ≠ [] := by
    intro hcount hnil
    have := h.channel.results
    rw [hnil] at this
    have := congrArg List.length this
    simp at this
    omega
  cases hp : c.phase with
  | selecting =>
    by_cases hcount : c.count < hs.length
    · obtain ⟨result,rest,hres⟩ := List.exists_cons_of_ne_nil (hready hcount)
      obtain ⟨c',-,hstep,-⟩ := receive_step h hp hres
      exact ⟨_,c',hstep⟩
    · have hnil := (h.selecting hp).2.2.2.resolve_left hcount
      obtain ⟨c',-,hstep,-⟩ := timeout_step h hp (hsome.resolve_left (by simp [hnil]))
      exact ⟨_,c',hstep⟩
  | waiting =>
    obtain ⟨c',-,hstep,-⟩ := wait_step h hp hready
    exact ⟨_,c',hstep⟩
  | finished => exact absurd hp hphase

/-- What the main routine returns with the result. -/
theorem info_exact (h : Inv model computeInfo timeout hs c ranks sent)
    (hphase : c.phase = .finished) (hci : computeInfo = true) {i : ℕ} {entries : List (Entry I O)}
    (hi : hs[i]? = some entries) :
    ∃ p, c.longest[i]? = some (some p) ∧ Sound model entries p ∧
      (c.timedOut = false → ¬ Linearizable model entries → Longest model entries p) := by
  have hcount := h.finished hphase hci
  have := h.channel.count
  obtain ⟨b,hb⟩ := sent_all h.channel (by omega) (List.getElem?_eq_some_iff.mp hi).1
  obtain ⟨entries',p,killed,hi',hl,hk,hv⟩ := h.channel.stored _ hb
  obtain rfl := Option.some.inj (hi.symm.trans hi')
  refine ⟨p,hl,hv.sound,fun ht hnot => ?_⟩
  have hb : b = false := by
    cases b
    · rfl
    · exact absurd (hv.accepted rfl) hnot
  have hkilled : killed = false := by
    cases killed
    · rfl
    · rcases h.killed (hk rfl) with h' | h' <;> simp_all
  exact (hv.rejected hb hkilled).2 hci

theorem timed_out_step (e : ParallelChecker.Event) (hne : e ≠ .timeout)
    (h : step model computeInfo timeout c e = some c') : c'.timedOut = c.timedOut := by
  cases e with
  | timeout => exact absurd rfl hne
  | routine i =>
    simp only [step] at h
    grind
  | receive =>
    simp only [step] at h
    grind
  | wait =>
    simp only [step] at h
    grind

end

theorem bounded_run (hm : SoundEqual model) (hh : ∀ entries ∈ hs, History entries)
    {es : List ParallelChecker.Event} {c : Parallel S I O}
    (h : exec (step model computeInfo timeout) (checkParallel hs) es = some c) :
    ∃ m, Bounded model computeInfo timeout hs c m :=
  exec_always _ (fun c => ∃ m, Bounded model computeInfo timeout hs c m)
    (fun _ e _ ⟨_,hb⟩ hs => by
      obtain ⟨k,-,hk⟩ := bounded_step hm hh hb e hs
      exact ⟨k,hk⟩) es _ _ (bounded_start model computeInfo timeout hs) h

theorem timed_out_run {es : List ParallelChecker.Event} {c : Parallel S I O}
    (h : exec (step model computeInfo timeout) (checkParallel hs) es = some c)
    (hes : .timeout ∉ es) : c.timedOut = false :=
  exec_invariant _ (fun _ e => e ≠ .timeout) (fun c => c.timedOut = false)
    (fun _ e _ hc hne hs => (timed_out_step e hne hs).trans hc) es _ _ rfl
    (meets_of_mem _ _ es _ (fun _ _ he heq => hes (heq ▸ he))) h

/-- Without a partition and without a timeout nothing happens. -/
theorem empty_waits (ht : timeout ≤ 0) (e : ParallelChecker.Event) :
    step model computeInfo timeout (checkParallel []) e = none := by
  cases e <;> simp [step, checkParallel, ht]

theorem sorted_get {parts : List (List (Operation I O))} {l : List (List (Entry I O))}
    (h : List.Forall₂ MakesEntries parts l) {i : ℕ} {part : List (Operation I O)}
    (hi : parts[i]? = some part) : ∃ entries, l[i]? = some entries ∧ MakesEntries part entries := by
  induction h generalizing i with
  | nil => simp at hi
  | @cons part' entries' parts' l' hm _ ih =>
    cases i with
    | zero =>
      obtain rfl : part' = part := by simpa using hi
      exact ⟨entries',rfl,hm⟩
    | succ i => exact ih (by simpa using hi)

theorem sorted_mem {parts : List (List (Operation I O))} {l : List (List (Entry I O))}
    (h : List.Forall₂ MakesEntries parts l) {entries : List (Entry I O)} (hin : entries ∈ l) :
    ∃ part ∈ parts, MakesEntries part entries := by
  induction h with
  | nil => simp at hin
  | cons hm _ ih =>
    rcases List.mem_cons.mp hin with rfl | hin
    · exact ⟨_,List.mem_cons_self,hm⟩
    · obtain ⟨part,hp,hm⟩ := ih hin
      exact ⟨part,List.mem_cons_of_mem _ hp,hm⟩

theorem sorted_histories {parts : List (List (Operation I O))} {l : List (List (Entry I O))}
    (h : List.Forall₂ MakesEntries parts l) (hc : ∀ part ∈ parts, ∀ op ∈ part, op.call ≤ op.ret) :
    ∀ entries ∈ l, History entries := by
  intro entries hin
  obtain ⟨part,hp,hm⟩ := sorted_mem h hin
  exact entries_history hm (hc part hp)

theorem check_operations_starts (model : Filled S I O) (history : List (Operation I O)) :
    StartsOperations model history (checkOperations model history) :=
  ⟨_,List.forall₂_map_right_iff.mpr (List.forall₂_same.mpr fun part _ => make_entries_makes part),
    rfl⟩

/-- However the goroutines and the main routine of `checkOperations` take turns,
there is no fault, and the number of events is bounded. The check goes on until
it has returned, but for one case: without a partition and without a timeout it
waits for ever. -/
theorem check_operations_ends (model : Filled S I O) (hm : SoundEqual model)
    (history : List (Operation I O))
    (hc : ∀ part ∈ model.partition history, ∀ op ∈ part, op.call ≤ op.ret)
    (computeInfo : Bool) (timeout : ℤ) (c₀ : Parallel S I O)
    (h₀ : StartsOperations model history c₀) :
    (∃ bound, ∀ es c, exec (step model computeInfo timeout) c₀ es = some c → es.length ≤ bound) ∧
    ∀ es c, exec (step model computeInfo timeout) c₀ es = some c →
      c.panicked = false ∧ (c.phase ≠ .finished →
        ((∃ e c', step model computeInfo timeout c e = some c') ↔
          ¬ (model.partition history = [] ∧ timeout ≤ 0))) := by
  obtain ⟨l,hl,rfl⟩ := h₀
  have hh := sorted_histories hl hc
  have hempty : model.partition history = [] ↔ l = [] := by
    rw [← List.length_eq_zero_iff, hl.length_eq, List.length_eq_zero_iff]
  constructor
  · obtain ⟨m,hb⟩ := bounded_start model computeInfo timeout l
    exact ⟨m,fun es c h => exec_bounded (Bounded model computeInfo timeout l)
      (fun _ _ e _ hb hs => bounded_step hm hh hb e hs) es _ c m hb h⟩
  · intro es c h
    obtain ⟨m,ranks,sent,hinv,-⟩ := bounded_run hm hh h
    refine ⟨hinv.panicked,fun hphase => ⟨?_,fun hsome => ?_⟩⟩
    · rintro ⟨e,c',hs⟩ ⟨hnil,ht⟩
      obtain rfl := hempty.mp hnil
      cases es with
      | nil =>
        obtain rfl := Option.some.inj h
        simp [empty_waits ht] at hs
      | cons e' es =>
        obtain ⟨u,hu,-⟩ := exec_cons_some _ _ _ _ _ h
        simp [empty_waits ht] at hu
    · refine not_stuck hm hh hinv hphase ?_
      rw [hempty, not_and_or, Int.not_le] at hsome
      exact hsome

theorem check_operations_ends_stale :
    (∃ bound, ∀ es c, exec (step register true 0) (checkParallel [staleEntries]) es = some c →
      es.length ≤ bound) ∧
    ∃ c, exec (step register true 0) (checkParallel [staleEntries])
        (List.replicate 10 (.routine 0)) = some c ∧
      c.panicked = false ∧ ∃ e c', step register true 0 c e = some c' := by
  obtain ⟨hbound,hrun⟩ := check_operations_ends register (sound_shallow _ rfl) staleRead (by decide)
    true 0 _ ⟨[staleEntries],.cons ⟨by decide,by decide⟩ .nil,rfl⟩
  obtain ⟨c,hc,hphase⟩ := Option.map_eq_some_iff.mp
    (by decide +kernel : (exec (step register true 0) (checkParallel [staleEntries])
      (List.replicate 10 (.routine 0))).map Parallel.phase = some .selecting)
  obtain ⟨hpanic,hgoes⟩ := hrun _ c hc
  exact ⟨hbound,c,hc,hpanic,(hgoes (by simp [hphase])).mpr (by simp [show
    register.partition staleRead = [staleRead] from rfl])⟩

theorem partials_sound {entries : List (Entry I O)} {p : Partials} (hp : Sound model entries p)
    {seq : List ℤ} (h : seq ∈ partialsOf (some p)) :
    ∃ os, seq = asIds os ∧
      IntervalHistory.Partial (entries.map mark) (legal model entries) model.init os := by
  obtain ⟨q,hq,hseq⟩ := List.mem_filterMap.mp h
  obtain ⟨l,hl,hlq⟩ := List.mem_filterMap.mp (List.mem_dedup.mp hq)
  obtain ⟨i,hi,hget⟩ := List.getElem_of_mem hl
  have hlong : p.longest[i]? = some (some q) := by
    rw [List.getElem?_eq_getElem hi, hget]
    exact congrArg some hlq
  obtain ⟨os,hos,-,hpart⟩ := hp.partials i q hlong
  exact ⟨os,Option.some.inj (hseq.symm.trans hos),hpart⟩

theorem partials_reach {entries : List (Entry I O)} {p : Partials} (hp : Sound model entries p)
    {i k : ℕ} (h : Reaches p i k) :
    ∃ seq ∈ partialsOf (some p), (i : ℤ) ∈ seq ∧ k ≤ seq.length := by
  obtain ⟨q,seq,hq,hseq,hk⟩ := h
  obtain ⟨os,hos,hi,-⟩ := hp.partials i q hq
  obtain rfl := Option.some.inj (hseq.symm.trans hos)
  refine ⟨asIds os,List.mem_filterMap.mpr ⟨q,?_,hseq⟩,List.mem_map.mpr ⟨i,hi,rfl⟩,hk⟩
  exact List.mem_dedup.mpr (List.mem_filterMap.mpr ⟨some q,List.mem_of_getElem? hq,rfl⟩)

theorem result_ok {c : Parallel S I O} (h : result c = .ok) :
    c.ok = true ∧ c.timedOut = false := by
  unfold result at h
  cases hok : c.ok <;> cases ht : c.timedOut <;> simp [hok, ht] at h ⊢

theorem result_illegal {c : Parallel S I O} (h : result c = .illegal) : c.ok = false := by
  unfold result at h
  cases hok : c.ok <;> cases ht : c.timedOut <;> simp [hok, ht] at h ⊢

theorem result_unknown {c : Parallel S I O} (h : result c = .unknown) : c.timedOut = true := by
  unfold result at h
  cases hok : c.ok <;> cases ht : c.timedOut <;> simp [hok, ht] at h ⊢

theorem result_exact (hm : SoundEqual model) {history : List (Operation I O)}
    (hc : ∀ part ∈ model.partition history, ∀ op ∈ part, op.call ≤ op.ret)
    {c₀ c : Parallel S I O} (h₀ : StartsOperations model history c₀)
    {es : List ParallelChecker.Event} (h : exec (step model computeInfo timeout) c₀ es = some c)
    (hphase : c.phase = .finished) :
    (result c = .ok → ∀ part ∈ model.partition history,
      LinearizableBy model.step model.init part) ∧
    (result c = .illegal → ∃ part ∈ model.partition history,
      ¬ LinearizableBy model.step model.init part) ∧
    (result c = .unknown → .timeout ∈ es ∧ 0 < timeout) := by
  obtain ⟨l,hl,rfl⟩ := h₀
  obtain ⟨m,ranks,sent,hinv,-⟩ := bounded_run hm (sorted_histories hl hc) h
  refine ⟨fun hok part hin => ?_,fun hill => ?_,fun hunk => ?_⟩
  · obtain ⟨hco,hct⟩ := result_ok hok
    obtain ⟨i,hi,hget⟩ := List.getElem_of_mem hin
    obtain ⟨entries,hentries,hmake⟩ := sorted_get hl
      ((List.getElem?_eq_getElem hi).trans (congrArg some hget))
    exact (linearizable_iff hmake model).mp (hinv.passed (by simp [hphase]) hco hct entries
      (List.mem_of_getElem? hentries))
  · obtain ⟨entries,hin,hnot⟩ := hinv.failed (result_illegal hill)
    obtain ⟨part,hpart,hmake⟩ := sorted_mem hl hin
    exact ⟨part,hpart,fun hlin => hnot ((linearizable_iff hmake model).mpr hlin)⟩
  · have hct := result_unknown hunk
    refine ⟨?_,hinv.timedOut hct⟩
    by_contra hes
    simp [timed_out_run h hes] at hct

/-- However the goroutines and the main routine of `checkOperations` take turns:
when it has returned, the result is `Ok` only if every partition is linearizable,
`Illegal` only if one is not, and `Unknown` only if the time was up. Asked for
more information, it returns only partial linearizations of the partitions, and
if the time was not up, for every partial linearization of a partition that is
not linearizable and every operation in it one that is at least as long. -/
theorem check_operations_verdict (model : Filled S I O) (hm : SoundEqual model)
    (history : List (Operation I O))
    (hc : ∀ part ∈ model.partition history, ∀ op ∈ part, op.call ≤ op.ret)
    (computeInfo : Bool) (timeout : ℤ) (c₀ : Parallel S I O)
    (h₀ : StartsOperations model history c₀) (es : List ParallelChecker.Event)
    (c : Parallel S I O) (h : exec (step model computeInfo timeout) c₀ es = some c)
    (hphase : c.phase = .finished) :
    (result c = .ok → ∀ part ∈ model.partition history,
      LinearizableBy model.step model.init part) ∧
    (result c = .illegal → ∃ part ∈ model.partition history,
      ¬ LinearizableBy model.step model.init part) ∧
    (result c = .unknown → .timeout ∈ es ∧ 0 < timeout) ∧
    (computeInfo = true → ∀ (i : ℕ) part, (model.partition history)[i]? = some part →
      ∃ l, (partialLinearizations c)[i]? = some l ∧
        (∀ seq ∈ l, ∃ os, seq = asIds os ∧ PartialLinearization model.step model.init part os) ∧
        (.timeout ∉ es → ¬ LinearizableBy model.step model.init part →
          ∀ os, PartialLinearization model.step model.init part os → ∀ j ∈ os,
            ∃ seq ∈ l, (j : ℤ) ∈ seq ∧ os.length ≤ seq.length)) := by
  obtain ⟨hok,hillegal,hunknown⟩ := result_exact hm hc h₀ h hphase
  refine ⟨hok,hillegal,hunknown,fun hci i part hi => ?_⟩
  obtain ⟨l,hl,rfl⟩ := h₀
  obtain ⟨m,ranks,sent,hinv,-⟩ := bounded_run hm (sorted_histories hl hc) h
  obtain ⟨entries,hentries,hmake⟩ := sorted_get hl hi
  obtain ⟨p,hp,hsound,hlong⟩ := info_exact hinv hphase hci hentries
  refine ⟨partialsOf (some p),by simp [partialLinearizations, hp],fun seq hseq => ?_,
    fun hes hnot os hos j hj => ?_⟩
  · obtain ⟨os,rfl,hos⟩ := partials_sound hsound hseq
    exact ⟨os,rfl,(partial_iff hmake model os).mp hos⟩
  · have hlongest := hlong (timed_out_run h hes)
      (fun hlin => hnot ((linearizable_iff hmake model).mp hlin))
    exact partials_reach hsound (hlongest os ((partial_iff hmake model os).mpr hos) j hj)

theorem check_operations_verdict_stale :
    ∃ c, exec (step register true 0) (checkParallel [staleEntries])
        (List.replicate 11 (.routine 0) ++ [.receive, .wait]) = some c ∧
      result c = .illegal ∧ partialLinearizations c = [[[1, 0]]] ∧
      ¬ LinearizableBy register.step register.init staleRead := by
  obtain ⟨c,hc,hview⟩ := Option.map_eq_some_iff.mp
    (by decide +kernel : (exec (step register true 0) (checkParallel [staleEntries])
      (List.replicate 11 (.routine 0) ++ [.receive, .wait])).map
        (fun c => (c.phase, result c, partialLinearizations c)) =
      some (.finished, .illegal, [[[1, 0]]]))
  obtain ⟨hphase,hresult,hpartials⟩ : c.phase = .finished ∧ result c = .illegal ∧
      partialLinearizations c = [[[1, 0]]] := by simpa using hview
  obtain ⟨-,hillegal,-⟩ := check_operations_verdict register (sound_shallow _ rfl) staleRead
    (by decide) true 0 _ ⟨[staleEntries],.cons ⟨by decide,by decide⟩ .nil,rfl⟩ _ c hc hphase
  obtain ⟨part,hpart,hnot⟩ := hillegal hresult
  obtain rfl : part = staleRead := List.mem_singleton.mp hpart
  exact ⟨c,hc,hresult,hpartials,hnot⟩

end Mitdist.ParallelRuns
