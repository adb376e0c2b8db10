import Mitdist.CoordinatorRuns

/-!
# No task is lost or duplicated

The token of a task moves between its queue and the timers of the tasks handed
out. A task that was not reported is handed out again: after its timer it is
the last of its queue, which is where the coordinator takes tasks from.
-/

set_option autoImplicit false

namespace Mitdist.TaskReissue
open Mitdist.TaskPool Mitdist.TransitionSystem Mitdist.MrCoordinator Mitdist.CoordinatorRuns

theorem tracks_run (files : List String) (nReduce : ℕ) (es : List Event) (x : Job)
    (h : exec step (start files nReduce) es = some x) : Tracks files nReduce x := by
  apply exec_always step (Tracks files nReduce) ?_ es _ x (tracks_start files nReduce) h
  intro y e z hy hz
  exact tracks_step files nReduce y z e hy (step_outcome y z e hz)

theorem get_task_map (x : Job) (rest : List ℕ) (t : ℕ) (filename : String)
    (hphase : x.c.mapFinished.card < x.c.nMap) (hlast : x.c.mapUnfinished = rest ++ [t])
    (hfile : x.c.files[t]? = some filename) :
    getTask x = some (handOut x { x.c with mapUnfinished := rest }
      (some (.mapTaskReply filename x.c.nReduce t)),
      some (.mapTaskReply filename x.c.nReduce t)) := by
  simp [getTask, findTask, hphase, unassignedMap, pop_last_some _ rest t hlast, hfile]

theorem get_task_reduce (x : Job) (rest : List ℕ) (p : ℕ)
    (hmaps : ¬ x.c.mapFinished.card < x.c.nMap) (hphase : x.c.reduceFinished.card < x.c.nReduce)
    (hlast : x.c.reduceUnfinished = rest ++ [p]) :
    getTask x = some (handOut x { x.c with reduceUnfinished := rest }
      (some (.reduceTaskReply p x.c.files.length)),
      some (.reduceTaskReply p x.c.files.length)) := by
  simp [getTask, findTask, hmaps, hphase, unassignedReduce, pop_last_some _ rest p hlast]

/-- Enough calls of GetTask hand out the task. -/
def HandsOut (x : Job) (task : Task) : Prop :=
  ∃ k y z, exec step x (List.replicate k .getTask) = some y ∧ getTask y = some (z, some task)

theorem map_handed_out (files : List String) (nReduce : ℕ) (x : Job) (filename : String) (t : ℕ)
    (h : Tracks files nReduce x) (hphase : x.c.mapFinished.card < x.c.nMap)
    (hfile : files[t]? = some filename) (ht : t ∈ x.c.mapUnfinished) :
    HandsOut x (.mapTaskReply filename nReduce t) := by
  obtain ⟨front,back,hq⟩ := List.append_of_mem ht
  have hpop : ∀ s rest u, Tracks files nReduce s ∧ s.c.mapFinished.card < s.c.nMap →
      s.c.mapUnfinished = rest ++ [u] → ∃ s', step s .getTask = some s' ∧
        (Tracks files nReduce s' ∧ s'.c.mapFinished.card < s'.c.nMap) ∧
        s'.c.mapUnfinished = rest := by
    intro s rest u hs hlast
    have hu : u ∈ (mapPool s).queue := by
      show u ∈ s.c.mapUnfinished
      simp [hlast]
    have hlt := queued_valid _ _ hs.1.maps u hu
    rw [← hs.1.files_eq] at hlt
    have hg := get_task_map s rest u _ hs.2 hlast (List.getElem?_eq_getElem hlt)
    have hstep : step s .getTask = _ := congrArg (Option.map Prod.fst) hg
    have hnext := tracks_step files nReduce s _ .getTask hs.1 (step_outcome s _ .getTask hstep)
    exact ⟨_,hstep,⟨hnext,hs.2⟩,rfl⟩
  obtain ⟨y,hy,⟨hty,hpy⟩,hqy⟩ := exec_drain step .getTask (fun s => s.c.mapUnfinished) _ hpop
    front back t x ⟨h,hphase⟩ (by simpa using hq)
  rw [← hty.files_eq] at hfile
  have hg := get_task_map y front t filename hpy hqy hfile
  rw [hty.nReduce_eq] at hg
  exact ⟨back.length,y,_,hy,hg⟩

theorem reduce_handed_out (files : List String) (nReduce : ℕ) (x : Job) (p : ℕ)
    (h : Tracks files nReduce x) (hmaps : ¬ x.c.mapFinished.card < x.c.nMap)
    (hphase : x.c.reduceFinished.card < x.c.nReduce) (hp : p ∈ x.c.reduceUnfinished) :
    HandsOut x (.reduceTaskReply p files.length) := by
  obtain ⟨front,back,hq⟩ := List.append_of_mem hp
  have hpop : ∀ s rest u, (s.c.files = files ∧ ¬ s.c.mapFinished.card < s.c.nMap ∧
        s.c.reduceFinished.card < s.c.nReduce) →
      s.c.reduceUnfinished = rest ++ [u] → ∃ s', step s .getTask = some s' ∧
        (s'.c.files = files ∧ ¬ s'.c.mapFinished.card < s'.c.nMap ∧
          s'.c.reduceFinished.card < s'.c.nReduce) ∧ s'.c.reduceUnfinished = rest := by
    intro s rest u hs hlast
    have hg := get_task_reduce s rest u hs.2.1 hs.2.2 hlast
    exact ⟨_,congrArg (Option.map Prod.fst) hg,hs,rfl⟩
  obtain ⟨y,hy,⟨hfy,hmy,hpy⟩,hqy⟩ := exec_drain step .getTask (fun s => s.c.reduceUnfinished) _
    hpop front back p x ⟨h.files_eq,hmaps,hphase⟩ (by simpa using hq)
  have hg := get_task_reduce y front p hmy hpy hqy
  rw [hfy] at hg
  exact ⟨back.length,y,_,hy,hg⟩

/-- After its timer an unreported task is the next one to be handed out. -/
theorem map_reset_handed (files : List String) (nReduce : ℕ) (x : Job) (filename : String) (t : ℕ)
    (h : Tracks files nReduce x) (hphase : x.c.mapFinished.card < x.c.nMap)
    (hfile : files[t]? = some filename) (hrep : ¬ MapReported x t) (ht : t ∈ x.mapTimers) :
    ∃ y z, step x (.resetMap t) = some y ∧
      getTask y = some (z, some (.mapTaskReply filename nReduce t)) := by
  rw [← h.mapReported] at hrep
  rw [← h.files_eq] at hfile
  rw [← h.nReduce_eq]
  refine ⟨_,_,if_pos ht,get_task_map _ x.c.mapUnfinished t filename hphase ?_ hfile⟩
  simp [resetMap, resetTask, hrep]

theorem reduce_reset_handed (files : List String) (nReduce : ℕ) (x : Job) (p : ℕ)
    (h : Tracks files nReduce x) (hmaps : ¬ x.c.mapFinished.card < x.c.nMap)
    (hphase : x.c.reduceFinished.card < x.c.nReduce) (hrep : ¬ ReduceReported x p)
    (hp : p ∈ x.reduceTimers) :
    ∃ y z, step x (.resetReduce p) = some y ∧
      getTask y = some (z, some (.reduceTaskReply p files.length)) := by
  rw [← h.reduceReported] at hrep
  rw [← h.files_eq]
  refine ⟨_,_,if_pos hp,get_task_reduce _ x.c.reduceUnfinished p hmaps hphase ?_⟩
  simp [resetReduce, resetTask, hrep]

theorem map_phase_open (files : List String) (nReduce : ℕ) (x : Job) (t : ℕ)
    (h : Phased files nReduce x) (ht : t < files.length) (hrep : ¬ MapReported x t) :
    x.c.mapFinished.card < x.c.nMap := by
  obtain ⟨hle,hfull⟩ := maps_full files nReduce x h
  have hne : x.c.mapFinished.card ≠ files.length := fun heq => hrep (hfull.mp heq t ht)
  rw [h.tracks.nMap_eq]
  omega

theorem reduce_phase_open (files : List String) (nReduce : ℕ) (x : Job) (p m : ℕ)
    (h : Phased files nReduce x) (hp : Task.reduceTaskReply p m ∈ x.handed)
    (hrep : ¬ ReduceReported x p) :
    ¬ x.c.mapFinished.card < x.c.nMap ∧ x.c.reduceFinished.card < x.c.nReduce := by
  obtain ⟨hlt,-,hmaps⟩ := h.handed _ hp
  obtain ⟨hle,hfull⟩ := reduces_full files nReduce x h
  have hmap := (maps_full files nReduce x h).2.mpr hmaps
  have hne : x.c.reduceFinished.card ≠ nReduce := fun heq => hrep (hfull.mp heq p hlt)
  rw [h.tracks.nMap_eq, h.tracks.nReduce_eq]
  omega

/-- A task is queued or has one timer until it is reported. It is the next one
to be handed out after its timer, and a queued task is handed out after the
tasks behind it. -/
theorem tasks_conserved (files : List String) (nReduce : ℕ) (es : List Event) (x : Job)
    (h : exec step (start files nReduce) es = some x) :
    (∀ t, x.c.mapUnfinished.count t + x.mapTimers.count t ≤ 1) ∧
    (∀ t < files.length, ¬ MapReported x t →
      x.c.mapUnfinished.count t + x.mapTimers.count t = 1) ∧
    (∀ p, x.c.reduceUnfinished.count p + x.reduceTimers.count p ≤ 1) ∧
    (∀ p < nReduce, ¬ ReduceReported x p →
      x.c.reduceUnfinished.count p + x.reduceTimers.count p = 1) ∧
    (Meets step HandedOut (start files nReduce) es →
      (∀ t filename, files[t]? = some filename → ¬ MapReported x t →
        (t ∈ x.mapTimers → ∃ y z, step x (.resetMap t) = some y ∧
          getTask y = some (z, some (.mapTaskReply filename nReduce t))) ∧
        (t ∈ x.c.mapUnfinished → HandsOut x (.mapTaskReply filename nReduce t))) ∧
      (∀ p < nReduce, ∀ m, Task.reduceTaskReply p m ∈ x.handed → ¬ ReduceReported x p →
        (p ∈ x.reduceTimers → ∃ y z, step x (.resetReduce p) = some y ∧
          getTask y = some (z, some (.reduceTaskReply p files.length))) ∧
        (p ∈ x.c.reduceUnfinished → HandsOut x (.reduceTaskReply p files.length)))) := by
  have htracks := tracks_run files nReduce es x h
  refine ⟨htracks.maps.once,?_,htracks.reduces.once,?_,?_⟩
  · intro t ht hrep
    rw [← htracks.mapReported] at hrep
    exact htracks.maps.kept t ht hrep
  · intro p hp hrep
    rw [← htracks.reduceReported] at hrep
    exact htracks.reduces.kept p hp hrep
  · intro hm
    have hx := phased_run files nReduce es x hm h
    constructor
    · intro t filename hfile hrep
      have ht := (List.getElem?_eq_some_iff.mp hfile).1
      have hopen := map_phase_open files nReduce x t hx ht hrep
      exact ⟨map_reset_handed files nReduce x filename t htracks hopen hfile hrep,
        map_handed_out files nReduce x filename t htracks hopen hfile⟩
    · intro p hlt m hp hrep
      obtain ⟨hmaps,hopen⟩ := reduce_phase_open files nReduce x p m hx hp hrep
      exact ⟨reduce_reset_handed files nReduce x p htracks hmaps hopen hrep,
        reduce_handed_out files nReduce x p htracks hmaps hopen⟩

/-- A worker was given the second of two map tasks and died. -/
theorem tasks_conserved_lost_worker :
    let es : List Event := [.getTask,.getTask,
      .finishTask (.mapTaskReply "pg-dorian_gray.txt" 2 0)]
    ∃ x, exec step (start ["pg-dorian_gray.txt","pg-grimm.txt"] 2) es = some x ∧
      ∃ y z, step x (.resetMap 1) = some y ∧
        getTask y = some (z, some (.mapTaskReply "pg-grimm.txt" 2 1)) := by
  intro es
  let files := ["pg-dorian_gray.txt","pg-grimm.txt"]
  have hm : Meets step HandedOut (start files 2) es := by decide +kernel
  have hsome : (exec step (start files 2) es).isSome := by decide +kernel
  have htimer : ∀ x ∈ exec step (start files 2) es, 1 ∈ x.mapTimers ∧
      x.reported = [.mapTaskReply "pg-dorian_gray.txt" 2 0] := by
    decide +kernel
  obtain ⟨x,hx⟩ := Option.isSome_iff_exists.mp hsome
  obtain ⟨ht,hr⟩ := htimer x hx
  obtain ⟨-,-,-,-,hagain⟩ := tasks_conserved files 2 es x hx
  have hrep : ¬ MapReported x 1 := by simp [MapReported, hr]
  exact ⟨x,hx,((hagain hm).1 1 "pg-grimm.txt" rfl hrep).1 ht⟩

end Mitdist.TaskReissue
