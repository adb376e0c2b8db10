import Mitdist.MrCoordinator

/-!
# Runs of the coordinator

In every run the token of a task is in its queue or with one timer until the
task is reported. If workers report only what was handed out to them, the sets
of finished tasks have no other members, and comparing their sizes with the
numbers of tasks is the same as asking whether all tasks were reported.

The flag is stored some time after that comparison, and a report of a map task
and one of a reduce task do not exclude each other. If the last task is reported
while a report of the other kind is between the two, the answer that it has is
stale, and storing it last leaves a completed job that never says it is done.
-/

set_option autoImplicit false

namespace Mitdist.CoordinatorRuns
open Mitdist.TaskPool Mitdist.TransitionSystem Mitdist.MrCoordinator

/-- What a job keeps whatever is reported to it. -/
structure Tracks (files : List String) (nReduce : ℕ) (x : Job) : Prop where
  files_eq : x.c.files = files
  nMap_eq : x.c.nMap = files.length
  nReduce_eq : x.c.nReduce = nReduce
  maps : Sound files.length (mapPool x)
  reduces : Sound nReduce (reducePool x)
  mapReported : ∀ t, t ∈ x.c.mapFinished ↔ MapReported x t
  reduceReported : ∀ p, p ∈ x.c.reduceFinished ↔ ReduceReported x p

theorem tracks_start (files : List String) (nReduce : ℕ) :
    Tracks files nReduce (start files nReduce) := by
  have hrange : ∀ n, makeRange 0 n = List.range n := by
    intro n
    simp [makeRange]
  have hmaps := sound_fresh files.length
  have hreduces := sound_fresh nReduce
  rw [fresh, ← hrange] at hmaps hreduces
  constructor
  · rfl
  · rfl
  · rfl
  · exact hmaps
  · exact hreduces
  · simp [start, makeCoordinator, MapReported]
  · simp [start, makeCoordinator, ReduceReported]

theorem step_sizes (x y : Job) (e : Event) (h : Steps x e y) :
    y.c.files = x.c.files ∧ y.c.nMap = x.c.nMap ∧ y.c.nReduce = x.c.nReduce := by
  cases h with
  | getTask c found hf => cases hf <;> exact ⟨rfl,rfl,rfl⟩
  | finishTask task _ => cases task <;> exact ⟨rfl,rfl,rfl⟩
  | evaluate l _ => exact ⟨rfl,rfl,rfl⟩
  | store l done _ => exact ⟨rfl,rfl,rfl⟩
  | resetMap t ht => exact ⟨rfl,rfl,rfl⟩
  | resetReduce p hp => exact ⟨rfl,rfl,rfl⟩

/-- Only a report changes the sets of finished tasks. -/
theorem step_reports (x y : Job) (e : Event) (h : Steps x e y) :
    (∃ task, e = .finishTask task ∧ y = report x task) ∨
      (y.reported = x.reported ∧ y.c.mapFinished = x.c.mapFinished ∧
        y.c.reduceFinished = x.c.reduceFinished) := by
  cases h with
  | getTask c found hf => cases hf <;> exact .inr ⟨rfl,rfl,rfl⟩
  | finishTask task _ => exact .inl ⟨task,rfl,rfl⟩
  | evaluate l _ => exact .inr ⟨rfl,rfl,rfl⟩
  | store l done _ => exact .inr ⟨rfl,rfl,rfl⟩
  | resetMap t ht => exact .inr ⟨rfl,rfl,rfl⟩
  | resetReduce p hp => exact .inr ⟨rfl,rfl,rfl⟩

theorem map_reported_report (x : Job) (task : Task) (t : ℕ) :
    MapReported (report x task) t ↔
      MapReported x t ∨ ∃ filename nReduce, Task.mapTaskReply filename nReduce t = task := by
  simp only [MapReported, report, List.mem_append, List.mem_singleton, exists_or]

theorem reduce_reported_report (x : Job) (task : Task) (p : ℕ) :
    ReduceReported (report x task) p ↔
      ReduceReported x p ∨ ∃ nMappers, Task.reduceTaskReply p nMappers = task := by
  simp only [ReduceReported, report, List.mem_append, List.mem_singleton, exists_or]

theorem map_finished_report (x : Job) (task : Task) (t : ℕ) :
    t ∈ (report x task).c.mapFinished ↔
      t ∈ x.c.mapFinished ∨ ∃ filename nReduce, Task.mapTaskReply filename nReduce t = task := by
  cases task with
  | mapTaskReply f n u => simp [report, finishTask, completeMap, or_comm]
  | reduceTaskReply p m => simp [report, finishTask, completeReduce]
  | terminateTaskReply => simp [report, finishTask]

theorem reduce_finished_report (x : Job) (task : Task) (p : ℕ) :
    p ∈ (report x task).c.reduceFinished ↔
      p ∈ x.c.reduceFinished ∨ ∃ nMappers, Task.reduceTaskReply p nMappers = task := by
  cases task with
  | mapTaskReply f n u => simp [report, finishTask, completeMap]
  | reduceTaskReply q m => simp [report, finishTask, completeReduce, or_comm]
  | terminateTaskReply => simp [report, finishTask]

theorem tracks_step (files : List String) (nReduce : ℕ) (x y : Job) (e : Event)
    (h : Tracks files nReduce x) (hs : Steps x e y) : Tracks files nReduce y := by
  obtain ⟨hfiles,hmap,hreduce⟩ := step_sizes x y e hs
  obtain ⟨hm,hr⟩ := step_moves x y e hs
  have hreports := step_reports x y e hs
  constructor
  · exact hfiles.trans h.files_eq
  · exact hmap.trans h.nMap_eq
  · exact hreduce.trans h.nReduce_eq
  · exact sound_moves _ _ _ h.maps hm
  · exact sound_moves _ _ _ h.reduces hr
  · intro t
    rcases hreports with ⟨task,-,rfl⟩ | ⟨hrep,hfin,-⟩
    · rw [map_finished_report, map_reported_report, h.mapReported t]
    · rw [hfin, MapReported, hrep]
      exact h.mapReported t
  · intro p
    rcases hreports with ⟨task,-,rfl⟩ | ⟨hrep,-,hfin⟩
    · rw [reduce_finished_report, reduce_reported_report, h.reduceReported p]
    · rw [hfin, ReduceReported, hrep]
      exact h.reduceReported p

/-- A worker reports only what was handed out. -/
def HandedOut (x : Job) : Event → Prop
  | .finishTask task => task ∈ x.handed
  | _ => True

instance decidableHandedOut (x : Job) : ∀ e : Event, Decidable (HandedOut x e)
  | .finishTask task => inferInstanceAs (Decidable (task ∈ x.handed))
  | .getTask | .evaluate _ | .store _ | .resetMap _ | .resetReduce _ => .isTrue trivial

def MapsReported (files : List String) (x : Job) : Prop := ∀ t < files.length, MapReported x t

def ReducesReported (nReduce : ℕ) (x : Job) : Prop := ∀ p < nReduce, ReduceReported x p

theorem reported_grows (x y : Job) (e : Event) (h : Steps x e y) : x.reported ⊆ y.reported := by
  rcases step_reports x y e h with ⟨task,-,rfl⟩ | ⟨hsame,-⟩
  · exact List.subset_append_left _ _
  · rw [hsame]
    exact List.Subset.refl _

theorem maps_reported_mono (files : List String) (x y : Job) (h : x.reported ⊆ y.reported)
    (hx : MapsReported files x) : MapsReported files y := by
  intro t ht
  obtain ⟨f,k,hm⟩ := hx t ht
  exact ⟨f,k,h hm⟩

theorem reduces_reported_mono (nReduce : ℕ) (x y : Job) (h : x.reported ⊆ y.reported)
    (hx : ReducesReported nReduce x) : ReducesReported nReduce y := by
  intro p hp
  obtain ⟨m,hm⟩ := hx p hp
  exact ⟨m,h hm⟩

/-- What a task says, and when it can have been handed out. -/
def Issued (files : List String) (nReduce : ℕ) (x : Job) : Task → Prop
  | .mapTaskReply filename k t => files[t]? = some filename ∧ k = nReduce
  | .reduceTaskReply p m => p < nReduce ∧ m = files.length ∧ MapsReported files x
  | .terminateTaskReply => MapsReported files x ∧ ReducesReported nReduce x

/-- The invariant of the runs in which workers report what was handed out. -/
structure Phased (files : List String) (nReduce : ℕ) (x : Job) : Prop where
  tracks : Tracks files nReduce x
  handed : ∀ task ∈ x.handed, Issued files nReduce x task
  mapValid : ∀ t, MapReported x t → t < files.length
  reduceValid : ∀ p, ReduceReported x p → p < nReduce

theorem issued_mono (files : List String) (nReduce : ℕ) (x y : Job) (task : Task)
    (h : x.reported ⊆ y.reported) (hi : Issued files nReduce x task) :
    Issued files nReduce y task := by
  cases task with
  | mapTaskReply f k t => exact hi
  | reduceTaskReply p m => exact ⟨hi.1,hi.2.1,maps_reported_mono files x y h hi.2.2⟩
  | terminateTaskReply =>
    exact ⟨maps_reported_mono files x y h hi.1,reduces_reported_mono nReduce x y h hi.2⟩

/-- The size of the set tells whether all tasks were reported. -/
theorem maps_full (files : List String) (nReduce : ℕ) (x : Job) (h : Phased files nReduce x) :
    x.c.mapFinished.card ≤ files.length ∧
      (x.c.mapFinished.card = files.length ↔ MapsReported files x) :=
  card_reported _ _ _ h.tracks.mapReported h.mapValid

theorem reduces_full (files : List String) (nReduce : ℕ) (x : Job) (h : Phased files nReduce x) :
    x.c.reduceFinished.card ≤ nReduce ∧
      (x.c.reduceFinished.card = nReduce ↔ ReducesReported nReduce x) :=
  card_reported _ _ _ h.tracks.reduceReported h.reduceValid

/-- What is found may be handed out. -/
theorem finds_issued (files : List String) (nReduce : ℕ) (x : Job) (c : Coordinator) (task : Task)
    (h : Phased files nReduce x) (hf : Finds x.c c (some task)) : Issued files nReduce x task := by
  obtain ⟨hmle,hm⟩ := maps_full files nReduce x h
  obtain ⟨hrle,hr⟩ := reduces_full files nReduce x h
  have hnMap := h.tracks.nMap_eq
  have hnReduce := h.tracks.nReduce_eq
  cases hf with
  | mapTask rest t f _ _ hfile =>
    rw [h.tracks.files_eq] at hfile
    exact ⟨hfile,hnReduce⟩
  | reduceTask rest p hmaps _ hlast =>
    have hp : p ∈ (reducePool x).queue := by
      show p ∈ x.c.reduceUnfinished
      simp [hlast]
    exact ⟨queued_valid _ _ h.tracks.reduces p hp,by rw [h.tracks.files_eq],hm.mp (by omega)⟩
  | terminate hmaps hreduces => exact ⟨hm.mp (by omega),hr.mp (by omega)⟩

theorem hand_out_handed (x : Job) (c : Coordinator) (found : Option Task) :
    (handOut x c found).handed = x.handed ++ found.toList := by
  cases found with
  | none => simp [handOut]
  | some task => cases task <;> rfl

/-- The tasks that a step hands out. -/
theorem step_handed (files : List String) (nReduce : ℕ) (x y : Job) (e : Event)
    (h : Phased files nReduce x) (hs : Steps x e y) :
    ∀ task ∈ y.handed, Issued files nReduce x task := by
  cases hs with
  | getTask c found hf =>
    intro task ht
    rw [hand_out_handed, List.mem_append] at ht
    rcases ht with ht | ht
    · exact h.handed task ht
    · rw [Option.mem_toList] at ht
      subst ht
      exact finds_issued files nReduce x c task h hf
  | finishTask t _ => exact h.handed
  | evaluate l _ => exact h.handed
  | store l done _ => exact h.handed
  | resetMap t ht => exact h.handed
  | resetReduce p hp => exact h.handed

theorem phased_step (files : List String) (nReduce : ℕ) (x : Job) (e : Event) (y : Job)
    (h : Phased files nReduce x) (hc : HandedOut x e) (hstep : step x e = some y) :
    Phased files nReduce y := by
  have hs := step_outcome x y e hstep
  have hreports := step_reports x y e hs
  constructor
  · exact tracks_step files nReduce x y e h.tracks hs
  · intro task ht
    have hissued := step_handed files nReduce x y e h hs task ht
    exact issued_mono files nReduce x y task (reported_grows x y e hs) hissued
  · intro t ht
    rcases hreports with ⟨task,rfl,rfl⟩ | ⟨hrep,-⟩
    · rcases (map_reported_report x task t).mp ht with hold | ⟨f,k,rfl⟩
      · exact h.mapValid t hold
      · exact (List.getElem?_eq_some_iff.mp (h.handed _ hc).1).1
    · rw [MapReported, hrep] at ht
      exact h.mapValid t ht
  · intro p hp
    rcases hreports with ⟨task,rfl,rfl⟩ | ⟨hrep,-⟩
    · rcases (reduce_reported_report x task p).mp hp with hold | ⟨m,rfl⟩
      · exact h.reduceValid p hold
      · exact (h.handed _ hc).1
    · rw [ReduceReported, hrep] at hp
      exact h.reduceValid p hp

theorem phased_start (files : List String) (nReduce : ℕ) :
    Phased files nReduce (start files nReduce) := by
  constructor
  · exact tracks_start files nReduce
  · simp [start]
  · simp [MapReported, start]
  · simp [ReduceReported, start]

theorem phased_run (files : List String) (nReduce : ℕ) (es : List Event) (x : Job)
    (hm : Meets step HandedOut (start files nReduce) es)
    (h : exec step (start files nReduce) es = some x) : Phased files nReduce x :=
  exec_invariant step HandedOut (Phased files nReduce) (phased_step files nReduce) es _ x
    (phased_start files nReduce) hm h

theorem exec_reported (es : List Event) (x y : Job) (h : exec step x es = some y) :
    x.reported ⊆ y.reported := by
  induction es generalizing x with
  | nil =>
    obtain rfl := Option.some.inj h
    exact List.Subset.refl _
  | cons e es ih =>
    obtain ⟨u,hu,he⟩ := exec_cons_some step x y e es h
    exact List.Subset.trans (reported_grows x u e (step_outcome x u e hu)) (ih u he)

/-- A queued task names a file, so an attempt always has a result. -/
theorem find_task_total (files : List String) (nReduce : ℕ) (x : Job)
    (h : Tracks files nReduce x) : ∃ c found, findTask x.c = some (c, found) := by
  rw [findTask]
  split_ifs with hmaps hreduces
  · rcases pop_last_cases x.c.mapUnfinished with ⟨hnil,hp⟩ | ⟨rest,t,hlast,hp⟩
    · simp [unassignedMap, hp]
    · have ht : t ∈ (mapPool x).queue := by
        show t ∈ x.c.mapUnfinished
        simp [hlast]
      have hlt := queued_valid _ _ h.maps t ht
      rw [← h.files_eq] at hlt
      simp [unassignedMap, hp, hlt]
  · rcases pop_last_cases x.c.reduceUnfinished with ⟨hnil,hp⟩ | ⟨rest,t,hlast,hp⟩ <;>
      simp [unassignedReduce, hp]
  · exact ⟨_,_,rfl⟩

/-- What completeTask evaluates. -/
theorem all_finished_iff (files : List String) (nReduce : ℕ) (x : Job)
    (h : Phased files nReduce x) :
    allFinished x.c = true ↔ MapsReported files x ∧ ReducesReported nReduce x := by
  rw [allFinished, Bool.and_eq_true, beq_iff_eq, beq_iff_eq, h.tracks.files_eq,
    h.tracks.nReduce_eq, (maps_full files nReduce x h).2, (reduces_full files nReduce x h).2]

/-- Nothing says that the job is done before it is. -/
structure Honest (files : List String) (nReduce : ℕ) (x : Job) : Prop where
  done : x.c.done = true → MapsReported files x ∧ ReducesReported nReduce x
  stored : ∀ l, x.locks l = .evaluated true → MapsReported files x ∧ ReducesReported nReduce x

theorem honest_start (files : List String) (nReduce : ℕ) :
    Honest files nReduce (start files nReduce) := by
  constructor
  · simp [start, makeCoordinator]
  · simp [start]

theorem honest_step (files : List String) (nReduce : ℕ) (x : Job) (e : Event) (y : Job)
    (hp : Phased files nReduce x) (h : Honest files nReduce x) (hstep : step x e = some y) :
    Honest files nReduce y := by
  have hs := step_outcome x y e hstep
  have hgrow : MapsReported files x ∧ ReducesReported nReduce x →
      MapsReported files y ∧ ReducesReported nReduce y := by
    have hsub := reported_grows x y e hs
    exact And.imp (maps_reported_mono files x y hsub) (reduces_reported_mono nReduce x y hsub)
  have hkeep : NoReport e → Honest files nReduce y := by
    intro he
    obtain ⟨hdone,hlocks,-⟩ := no_report_keeps x y e he hs
    exact ⟨fun hd => hgrow (h.done (hdone ▸ hd)),fun l hl => hgrow (h.stored l (hlocks ▸ hl))⟩
  cases hs with
  | getTask c found hf => exact hkeep trivial
  | resetMap t ht => exact hkeep trivial
  | resetReduce p hp => exact hkeep trivial
  | finishTask task hfree =>
    refine ⟨fun hd => hgrow (h.done (by cases task <;> exact hd)),fun l hl => ?_⟩
    simp only [report] at hl
    split_ifs at hl
    exact hgrow (h.stored l hl)
  | evaluate l hl =>
    refine ⟨h.done,fun k hk => ?_⟩
    rw [evaluate_locks] at hk
    split_ifs at hk
    · exact (all_finished_iff files nReduce x hp).mp (Completion.evaluated.inj hk)
    · exact h.stored k hk
  | store l done hl =>
    refine ⟨fun hd => h.stored l (hd ▸ hl),fun k hk => ?_⟩
    rw [store_locks] at hk
    split_ifs at hk
    exact h.stored k hk

/-- The last outstanding task is not reported while a report of the other kind
has found tasks outstanding and has yet to store that. -/
def Apart (x : Job) : Event → Prop
  | .finishTask task => allFinished x.c = false → allFinished (finishTask x.c task) = true →
      ∀ l ∈ lockOf task, x.locks (other l) ≠ .evaluated false
  | _ => True

instance decidableApart (x : Job) : ∀ e : Event, Decidable (Apart x e)
  | .finishTask task => inferInstanceAs (Decidable (allFinished x.c = false →
      allFinished (finishTask x.c task) = true →
        ∀ l ∈ lockOf task, x.locks (other l) ≠ .evaluated false))
  | .getTask | .evaluate _ | .store _ | .resetMap _ | .resetReduce _ => .isTrue trivial

/-- When all tasks are finished the flag says so, or some report will set it. -/
def Prompt (x : Job) : Prop :=
  allFinished x.c = true →
    (∀ l, x.locks l ≠ .evaluated false) ∧ (x.c.done = true ∨ ∃ l, x.locks l ≠ .free)

theorem prompt_start (files : List String) (nReduce : ℕ) (hpos : 1 ≤ files.length + nReduce) :
    Prompt (start files nReduce) := by
  intro h
  simp only [allFinished, start, makeCoordinator, Finset.card_empty, Bool.and_eq_true,
    beq_iff_eq] at h
  omega

theorem prompt_report (x : Job) (task : Task) (h : Prompt x) (ha : Apart x (.finishTask task)) :
    Prompt (report x task) := by
  intro hall
  have hother : ∀ l ∈ lockOf task, x.locks (other l) ≠ .evaluated false := by
    cases hx : allFinished x.c with
    | true => exact fun l _ => (h hx).1 (other l)
    | false => exact ha hx hall
  cases task with
  | mapTaskReply f k t =>
    refine ⟨?_,.inr ⟨.mapLock,by simp [report, lockOf]⟩⟩
    rintro (_ | _)
    · simp [report, lockOf]
    · simpa [report, lockOf, other] using hother .mapLock rfl
  | reduceTaskReply p m =>
    refine ⟨?_,.inr ⟨.reduceLock,by simp [report, lockOf]⟩⟩
    rintro (_ | _)
    · simpa [report, lockOf, other] using hother .reduceLock rfl
    · simp [report, lockOf]
  | terminateTaskReply => simpa [report, lockOf, finishTask] using h hall

/-- When all tasks are finished, a report stores that they are. -/
theorem prompt_stores (x : Job) (l : Lock) (done : Bool) (h : Prompt x)
    (hall : allFinished x.c = true) (hl : x.locks l = .evaluated done) : done = true := by
  cases done with
  | true => rfl
  | false => exact absurd hl ((h hall).1 l)

theorem prompt_step (x : Job) (e : Event) (y : Job) (h : Prompt x) (ha : Apart x e)
    (hstep : step x e = some y) : Prompt y := by
  have hs := step_outcome x y e hstep
  have hkeep : NoReport e → Prompt y := by
    intro he
    obtain ⟨hdone,hlocks,hall⟩ := no_report_keeps x y e he hs
    rw [Prompt, hdone, hlocks, hall]
    exact h
  cases hs with
  | getTask c found hf => exact hkeep trivial
  | resetMap t ht => exact hkeep trivial
  | resetReduce p hp => exact hkeep trivial
  | finishTask task hfree => exact prompt_report x task h ha
  | evaluate l hl =>
    intro hall
    refine ⟨fun k => ?_,.inr ⟨l,by simp [evaluate_locks]⟩⟩
    rw [evaluate_locks]
    split_ifs
    · rw [show allFinished x.c = true from hall]
      simp
    · exact (h hall).1 k
  | store l done hl =>
    intro hall
    refine ⟨fun k => ?_,.inl (prompt_stores x l done h hall hl)⟩
    rw [store_locks]
    split_ifs
    · simp
    · exact (h hall).1 k

/-- No report is in progress. -/
def Settled (x : Job) : Prop := ∀ l, x.locks l = .free

theorem prompt_done (x : Job) (h : Prompt x) (hs : Settled x) (hall : allFinished x.c = true) :
    x.c.done = true := by
  rcases (h hall).2 with hd | ⟨l,hl⟩
  · exact hd
  · exact absurd (hs l) hl

theorem settled_apart (x : Job) (task : Task) (h : Settled x) : Apart x (.finishTask task) := by
  intro _ _ l _
  rw [h (other l)]
  exact nofun

/-- A report that goes through with nothing in between. -/
def wholeReport (x : Job) (task : Task) (l : Lock) : Job :=
  store (evaluate (report x task) l) l (allFinished (report x task).c)

theorem settled_report (x : Job) (task : Task) (l : Lock) (h : Settled x)
    (hl : lockOf task = some l) : Settled (wholeReport x task l) := by
  intro k
  rw [wholeReport, store_locks, evaluate_locks]
  split_ifs with hk
  · rfl
  · have hne : ¬ some l = some k := fun heq => hk (Option.some.inj heq).symm
    simp only [report, hl, if_neg hne]
    exact h k

/-- What holds of the runs in which workers report what was handed out. -/
structure Reported (files : List String) (nReduce : ℕ) (x : Job) : Prop where
  phased : Phased files nReduce x
  honest : Honest files nReduce x

theorem reported_step (files : List String) (nReduce : ℕ) (x : Job) (e : Event) (y : Job)
    (h : Reported files nReduce x) (hc : HandedOut x e) (hstep : step x e = some y) :
    Reported files nReduce y :=
  ⟨phased_step files nReduce x e y h.phased hc hstep,
    honest_step files nReduce x e y h.phased h.honest hstep⟩

theorem reported_run (files : List String) (nReduce : ℕ) (es : List Event) (x : Job)
    (hm : Meets step HandedOut (start files nReduce) es)
    (h : exec step (start files nReduce) es = some x) : Reported files nReduce x :=
  exec_invariant step HandedOut (Reported files nReduce) (reported_step files nReduce) es _ x
    ⟨phased_start files nReduce,honest_start files nReduce⟩ hm h

/-- A report that ends stores what is the case. -/
theorem stored_iff (files : List String) (nReduce : ℕ) (x y : Job) (l : Lock)
    (h : Reported files nReduce x) (hp : Prompt x) (hstep : step x (.store l) = some y) :
    y.c.done = true ↔ MapsReported files y ∧ ReducesReported nReduce y := by
  have hy := reported_step files nReduce x (.store l) y h trivial hstep
  refine ⟨hy.honest.done,fun hall => ?_⟩
  have hfin := (all_finished_iff files nReduce y hy.phased).mpr hall
  cases step_outcome x y _ hstep with
  | store _ done hl => exact prompt_stores x l done hp hfin hl

theorem done_step (files : List String) (nReduce : ℕ) (x : Job) (e : Event) (y : Job)
    (h : Reported files nReduce x) (hp : Prompt x) (hd : x.c.done = true)
    (hstep : step x e = some y) : y.c.done = true := by
  cases step_outcome x y e hstep with
  | getTask c found hf => cases hf <;> exact hd
  | finishTask task hfree => cases task <;> exact hd
  | evaluate l hl => exact hd
  | resetMap t ht => exact hd
  | resetReduce p hp => exact hd
  | store l done hl =>
    have hall := (all_finished_iff files nReduce x h.phased).mpr (h.honest.done hd)
    exact prompt_stores x l done hp hall hl

theorem done_kept (files : List String) (nReduce : ℕ) (es : List Event) (x y : Job)
    (h : Reported files nReduce x) (hp : Prompt x) (hd : x.c.done = true)
    (hm : Meets step (fun x e => HandedOut x e ∧ Apart x e) x es)
    (hy : exec step x es = some y) : y.c.done = true := by
  refine (exec_invariant step _ (fun x => (Reported files nReduce x ∧ Prompt x) ∧
    x.c.done = true) ?_ es x y ⟨⟨h,hp⟩,hd⟩ hm hy).2
  rintro u e v ⟨⟨hr,hp⟩,hd⟩ ⟨hc,ha⟩ hv
  exact ⟨⟨reported_step files nReduce u e v hr hc hv,prompt_step u e v hp ha hv⟩,
    done_step files nReduce u e v hr hp hd hv⟩

/-- A report of the last outstanding task overtakes a report of the other kind,
which then stores that the job is not done. -/
theorem overtaken (files : List String) (nReduce : ℕ) (x y : Job) (task : Task)
    (h : Reported files nReduce x) (hc : HandedOut x (.finishTask task))
    (ha : ¬ Apart x (.finishTask task)) (hstep : step x (.finishTask task) = some y) :
    ∃ l z, exec step y [.evaluate l,.store l,.store (other l)] = some z ∧ Settled z ∧
      (MapsReported files z ∧ ReducesReported nReduce z) ∧ z.c.done = false := by
  have hy := reported_step files nReduce x _ y h hc hstep
  simp only [Apart, not_forall, not_not] at ha
  obtain ⟨-,hfin,l,hl,hstale⟩ := ha
  cases step_outcome x y _ hstep with
  | finishTask _ hfree =>
    have hall := (all_finished_iff files nReduce _ hy.phased).mp hfin
    have hlocks : (report x task).locks l = .inserted ∧
        (report x task).locks (other l) = .evaluated false := by
      rw [Option.mem_def] at hl
      cases l <;> simpa [report, hl, other] using hstale
    have hne : other l ≠ l := by cases l <;> simp [other]
    have h1 := step_evaluate _ l hlocks.1
    have h2 : step (evaluate (report x task) l) (.store l) =
        some (store (evaluate (report x task) l) l true) := by
      apply step_store
      rw [evaluate_locks, if_pos rfl]
      exact congrArg Completion.evaluated hfin
    have h3 : step (store (evaluate (report x task) l) l true) (.store (other l)) =
        some (store (store (evaluate (report x task) l) l true) (other l) false) := by
      apply step_store
      rw [store_locks, if_neg hne, evaluate_locks, if_neg hne, hlocks.2]
    refine ⟨l,store (store (evaluate (report x task) l) l true) (other l) false,
      by simp only [exec, h1, h2, h3, Option.bind_some],?_,hall,rfl⟩
    intro k
    rw [store_locks, store_locks]
    cases k <;> cases l <;> simp [other]

/-- Reduce tasks are handed out when all map tasks were reported and the order to
terminate when all tasks were, and the job is done only then. If the last task
is not reported while a report of the other kind is about to store that tasks
are outstanding, every report that ends leaves the flag saying whether all tasks
were reported, and once it is set it stays so. If it is, the job may be left
with all tasks reported and the flag not set. -/
theorem phase_barrier (files : List String) (nReduce : ℕ) (hpos : 1 ≤ files.length + nReduce)
    (es : List Event) (x : Job) (hm : Meets step HandedOut (start files nReduce) es)
    (h : exec step (start files nReduce) es = some x) :
    (∃ y found, getTask x = some (y, found) ∧
      (∀ p m, found = some (.reduceTaskReply p m) → MapsReported files x) ∧
      (found = some .terminateTaskReply →
        MapsReported files x ∧ ReducesReported nReduce x)) ∧
    (∀ fs y, exec step x fs = some y →
      (MapsReported files x → MapsReported files y) ∧
      (ReducesReported nReduce x → ReducesReported nReduce y)) ∧
    (x.c.done = true → MapsReported files x ∧ ReducesReported nReduce x) ∧
    (Meets step Apart (start files nReduce) es →
      (∀ l y, step x (.store l) = some y →
        (y.c.done = true ↔ MapsReported files y ∧ ReducesReported nReduce y)) ∧
      (Settled x → (x.c.done = true ↔ MapsReported files x ∧ ReducesReported nReduce x)) ∧
      ∀ fs y, Meets step (fun x e => HandedOut x e ∧ Apart x e) x fs → exec step x fs = some y →
        x.c.done = true → y.c.done = true) ∧
    (∀ task y, HandedOut x (.finishTask task) → ¬ Apart x (.finishTask task) →
      step x (.finishTask task) = some y →
      ∃ l z, exec step y [.evaluate l,.store l,.store (other l)] = some z ∧ Settled z ∧
        (MapsReported files z ∧ ReducesReported nReduce z) ∧ z.c.done = false) := by
  have hx := reported_run files nReduce es x hm h
  refine ⟨?_,?_,hx.honest.done,?_,fun task y => overtaken files nReduce x y task hx⟩
  · obtain ⟨c,found,hf⟩ := find_task_total files nReduce x hx.phased.tracks
    refine ⟨handOut x c found,found,by rw [getTask, hf, Option.map_some],?_,?_⟩
    · intro p m hfound
      subst hfound
      exact (finds_issued files nReduce x c _ hx.phased (find_task_outcome x.c c _ hf)).2.2
    · intro hfound
      subst hfound
      exact finds_issued files nReduce x c _ hx.phased (find_task_outcome x.c c _ hf)
  · intro fs y hy
    have hsub := exec_reported fs x y hy
    exact ⟨maps_reported_mono files x y hsub,reduces_reported_mono nReduce x y hsub⟩
  · intro ha
    have hp := exec_invariant step Apart Prompt prompt_step es _ x
      (prompt_start files nReduce hpos) ha h
    exact ⟨fun l y => stored_iff files nReduce x y l hx hp,
      fun hs => ⟨hx.honest.done,fun hall => prompt_done x hp hs
        ((all_finished_iff files nReduce x hx.phased).mpr hall)⟩,
      fun fs y hfs hy hd => done_kept files nReduce fs x y hx hp hd hfs hy⟩

/-- The second report of a map task is in progress while the only reduce task is
reported, and it sees that report. -/
theorem phase_barrier_reassigned :
    let task := Task.mapTaskReply "pg-grimm.txt" 1 0
    let es : List Event := [.getTask,.resetMap 0,.getTask,.finishTask task,.evaluate .mapLock,
      .store .mapLock,.getTask,.finishTask task,.finishTask (.reduceTaskReply 0 1),
      .evaluate .mapLock,.evaluate .reduceLock,.store .reduceLock,.store .mapLock]
    Meets step HandedOut (start ["pg-grimm.txt"] 1) es ∧
      Meets step Apart (start ["pg-grimm.txt"] 1) es ∧
      ∃ x, exec step (start ["pg-grimm.txt"] 1) es = some x ∧ x.c.done = true ∧
        MapsReported ["pg-grimm.txt"] x ∧ ReducesReported 1 x := by
  intro task es
  have hm : Meets step HandedOut (start ["pg-grimm.txt"] 1) es := by decide +kernel
  have ha : Meets step Apart (start ["pg-grimm.txt"] 1) es := by decide +kernel
  have hsome : (exec step (start ["pg-grimm.txt"] 1) es).isSome := by decide +kernel
  have hdone : ∀ x ∈ exec step (start ["pg-grimm.txt"] 1) es, x.c.done = true ∧
      x.locks .mapLock = .free ∧ x.locks .reduceLock = .free := by
    decide +kernel
  obtain ⟨x,hx⟩ := Option.isSome_iff_exists.mp hsome
  obtain ⟨hd,hfree⟩ := hdone x hx
  have hsettled : Settled x := by
    rintro (_ | _)
    · exact hfree.1
    · exact hfree.2
  obtain ⟨-,-,-,hflag,-⟩ := phase_barrier ["pg-grimm.txt"] 1 (by decide) es x hm hx
  exact ⟨hm,ha,x,hx,hd,((hflag ha).2.1 hsettled).mp hd⟩

/-- A worker whose map task was given to another one reports it late. It finds
that the reduce task is outstanding, that task is reported and the job is done,
and then it stores that the job is not done. -/
theorem done_overwritten :
    let task := Task.mapTaskReply "pg-grimm.txt" 1 0
    let es : List Event := [.getTask,.resetMap 0,.getTask,.finishTask task,.evaluate .mapLock,
      .store .mapLock,.getTask,.finishTask task,.evaluate .mapLock,
      .finishTask (.reduceTaskReply 0 1),.evaluate .reduceLock,.store .reduceLock]
    Meets step HandedOut (start ["pg-grimm.txt"] 1) es ∧
      ∃ x y, exec step (start ["pg-grimm.txt"] 1) es = some x ∧ x.c.done = true ∧
        step x (.store .mapLock) = some y ∧ y.c.done = false ∧ Settled y ∧
        MapsReported ["pg-grimm.txt"] y ∧ ReducesReported 1 y := by
  intro task es
  have hm : Meets step HandedOut (start ["pg-grimm.txt"] 1) es := by decide +kernel
  have hsome : (exec step (start ["pg-grimm.txt"] 1) es).isSome := by decide +kernel
  have hview : ∀ x ∈ exec step (start ["pg-grimm.txt"] 1) es, x.c.done = true ∧
      x.locks .mapLock = .evaluated false ∧ x.locks .reduceLock = .free ∧
      x.reported = [task,task,.reduceTaskReply 0 1] := by
    decide +kernel
  obtain ⟨x,hx⟩ := Option.isSome_iff_exists.mp hsome
  obtain ⟨hd,hmap,hreduce,hrep⟩ := hview x hx
  refine ⟨hm,x,store x .mapLock false,hx,hd,step_store x .mapLock false hmap,rfl,?_,?_,?_⟩
  · rintro (_ | _)
    · rfl
    · exact hreduce
  · intro t ht
    obtain rfl : t = 0 := by simpa using ht
    exact ⟨"pg-grimm.txt",1,by simp [store, hrep, task]⟩
  · intro p hp
    obtain rfl : p = 0 := by omega
    exact ⟨1,by simp [store, hrep]⟩

end Mitdist.CoordinatorRuns
