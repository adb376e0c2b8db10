import Mitdist.MapOutputReads

/-!
# The result of a whole job

A reducer gathers the pairs of its partition file by file, and whoever renames
the output of a partition writes the same lines. When the coordinator is done
the files mr-out-p therefore have the lines that mrsequential writes for the
same input, whichever workers died on the way and however often tasks were
handed out.
-/

set_option autoImplicit false

namespace Mitdist.MrJob
open Mitdist.TransitionSystem Mitdist.Grouping Mitdist.MapReduce Mitdist.MapOutput
open Mitdist.MapReduceEquivalence Mitdist.CoordinatorRuns Mitdist.MrWorkers Mitdist.MapOutputReads
open Mitdist.MrCoordinator (Job Task MapReported ReduceReported report handOut)

section Result
variable (app : App) (files : List String) (nReduce : ℕ)

def pairs (i : ℕ) : List KeyValue := (emitted app files i).getD []

/-- What the files of the first map tasks have for a partition. -/
def gathered (p i : ℕ) : List KeyValue :=
  (List.range i).flatMap (fun k => part nReduce (pairs app files k) p)

def output (p : ℕ) : List (String × String) :=
  reduceSorted app.reducef (app.sort.run (gathered app files nReduce p files.length))

/-- What a worker on a reduce task has read or written. -/
def Gathers (fs : Files) : Worker → Prop
  | .reducing p m i kva => i ≤ m ∧ kva = gathered app files nReduce p i
  | .reduced p _ => fs.out p = some (output app files nReduce p)
  | .idle | .mapping _ _ _ | .finishing _ | .dead => True

structure Produces (s : System) : Prop where
  consistent : Consistent app files nReduce s
  honest : Honest files nReduce s.job
  workers : ∀ k ∈ s.workers, Gathers app files nReduce s.files k
  outputs : ∀ p, ReduceReported s.job p → s.files.out p = some (output app files nReduce p)

variable {app files nReduce}

theorem pairs_emitted (i : ℕ) (all : List KeyValue) (h : emitted app files i = some all) :
    pairs app files i = all := by
  rw [pairs, h, Option.getD_some]

theorem gathered_succ (p i : ℕ) : gathered app files nReduce p (i + 1) =
    gathered app files nReduce p i ++ part nReduce (pairs app files i) p := by
  rw [gathered, List.range_succ, List.flatMap_append, List.flatMap_singleton]
  rfl

theorem begun_gathers (fs : Files) (found : Option Task) :
    Gathers app files nReduce fs (begun app found) := by
  cases found with
  | none => trivial
  | some task =>
    cases task with
    | mapTaskReply filename k t =>
      rw [begun, beginTask]
      cases readInput app.contents filename <;> trivial
    | reduceTaskReply p m => exact ⟨Nat.zero_le m,rfl⟩
    | terminateTaskReply => trivial

/-- Outputs that are there stay as they are. -/
theorem gathers_files {fs fs' : Files} {k : Worker} (hk : Gathers app files nReduce fs k)
    (hout : ∀ p, fs.out p = some (output app files nReduce p) →
      fs'.out p = some (output app files nReduce p)) : Gathers app files nReduce fs' k := by
  cases k with
  | reduced p m => exact hout p hk
  | reducing p m i kva => exact hk
  | idle | mapping filename e kvs | finishing l | dead => trivial

theorem produces_set {s : System} (h : Produces app files nReduce s) (w : ℕ) (k : Worker)
    (job : Job) (fs : Files)
    (hc : Consistent app files nReduce ⟨job,fs,s.workers.set w k⟩)
    (hhonest : Honest files nReduce job)
    (hout : ∀ p, s.files.out p = some (output app files nReduce p) →
      fs.out p = some (output app files nReduce p))
    (hrep : ∀ p, ReduceReported job p → ReduceReported s.job p ∨
      fs.out p = some (output app files nReduce p))
    (hk : Gathers app files nReduce fs k) :
    Produces app files nReduce ⟨job,fs,s.workers.set w k⟩ where
  consistent := hc
  honest := hhonest
  workers v hv := by
    rcases List.mem_or_eq_of_mem_set hv with hv | rfl
    · exact gathers_files (h.workers v hv) hout
    · exact hk
  outputs p hp := (hrep p hp).elim (fun hp => hout p (h.outputs p hp)) id

theorem produces_step (s : System) (e : Event) (s' : System) (h : Produces app files nReduce s)
    (hc : CreatesAlone s e) (hs : step app s e = some s') : Produces app files nReduce s' := by
  have hnext := consistent_step s e s' h.consistent hc hs
  have hhonest := job_honest app files nReduce s s' e h.consistent.phased h.honest hs
  cases step_outcome app s s' e hs with
  | coordinator _ e' job workers _ _ hj _ hreported hworkers =>
    refine ⟨hnext,hhonest,fun k hk => ?_,fun p hp => ?_⟩
    · rcases hworkers k hk with hk | rfl
      · exact h.workers k hk
      · trivial
    · rw [ReduceReported, hreported] at hp
      exact h.outputs p hp
  | act w a k _ hk hact =>
    have hgathers := h.workers k (List.mem_of_getElem? hk)
    cases hact with
    | getTask job found hg =>
      obtain ⟨c,hf,rfl⟩ := MrCoordinator.get_task_outcome s.job job found hg
      refine produces_set h w _ _ _ hnext hhonest (fun _ hp => hp) (fun p hp => Or.inl ?_)
        (begun_gathers _ found)
      have hreported : (handOut s.job c found).reported = s.job.reported := by
        cases hf <;> rfl
      rwa [ReduceReported, hreported] at hp
    | create filename e kvs hlt =>
      exact produces_set h w _ _ _ hnext hhonest (fun _ hp => hp) (fun p hp => Or.inl hp) trivial
    | encode filename e e' kv kvs fs hopen hone =>
      obtain ⟨pos,-,rfl,rfl⟩ := encode_one_outcome e e' s.files fs kv hone
      exact produces_set h w _ _ _ hnext hhonest (fun _ hp => hp) (fun p hp => Or.inl hp) trivial
    | finishMap filename e job hopen hjob =>
      cases MrCoordinator.step_outcome s.job job _ hjob
      refine produces_set h w _ _ _ hnext hhonest (fun _ hp => hp) (fun p hp => Or.inl ?_) trivial
      rcases (reduce_reported_report s.job _ p).mp hp with hp | ⟨m,heq⟩
      · exact hp
      · cases heq
    | read p m i kva cells hlt hfile =>
      refine produces_set h w _ _ _ hnext hhonest (fun _ hp => hp) (fun p hp => Or.inl hp)
        ⟨hlt,?_⟩
      obtain ⟨all,hall,hread⟩ := reads_complete h.consistent p m i kva
        (List.mem_of_getElem? hk) hlt
      rw [hfile, Option.map_some, Option.some.injEq] at hread
      rw [gathered_succ, pairs_emitted i all hall, hread, ← hgathers.2]
    | rename p m i kva hge =>
      have hhanded : Task.reduceTaskReply p m ∈ s.job.handed :=
        h.consistent.workers _ (List.mem_of_getElem? hk)
      obtain ⟨-,hm,-⟩ := h.consistent.phased.handed _ hhanded
      have hi : i = files.length := (le_antisymm hgathers.1 (not_lt.mp hge)).trans hm
      have hwrite : reduceSorted app.reducef (app.sort.run kva) = output app files nReduce p := by
        rw [output, ← hi, ← hgathers.2]
      have hkeep : ∀ q, s.files.out q = some (output app files nReduce q) →
          Function.update s.files.out p (some (reduceSorted app.reducef (app.sort.run kva))) q =
            some (output app files nReduce q) := by
        intro q hq
        by_cases hqp : q = p
        · subst hqp
          rw [Function.update_self, hwrite]
        · rw [Function.update_of_ne hqp, hq]
      refine produces_set h w _ _ _ hnext hhonest hkeep (fun p hp => Or.inl hp) ?_
      show Function.update s.files.out p _ p = _
      rw [Function.update_self, hwrite]
    | finishReduce p m job hjob =>
      cases MrCoordinator.step_outcome s.job job _ hjob
      refine produces_set h w _ _ _ hnext hhonest (fun _ hp => hp) (fun q hq => ?_) trivial
      rcases (reduce_reported_report s.job _ q).mp hq with hq | ⟨m',heq⟩
      · exact Or.inl hq
      · obtain ⟨rfl,-⟩ := Task.reduceTaskReply.inj heq
        exact Or.inr hgathers
    | stop =>
      exact produces_set h w _ _ _ hnext hhonest (fun _ hp => hp) (fun p hp => Or.inl hp) trivial

theorem produces_start (fs : Files) (n : ℕ) :
    Produces app files nReduce (start files nReduce fs n) where
  consistent := consistent_start fs n
  honest := honest_start files nReduce
  workers k hk := by
    obtain rfl := List.eq_of_mem_replicate hk
    trivial
  outputs p hp := by simp [ReduceReported, start, MrCoordinator.start] at hp

def allPairs (app : App) (files : List String) : List (List KeyValue) :=
  (List.range files.length).map (pairs app files)

theorem emitted_emits (i : ℕ) (filename : String) (all : List KeyValue)
    (hfile : files[i]? = some filename) (h : emitted app files i = some all) :
    Emits app.contents app.mapf filename all := by
  rw [emitted, hfile, Option.bind_some] at h
  cases hr : readInput app.contents filename with
  | error msg => simp [hr] at h
  | ok content =>
    rw [hr] at h
    exact ⟨content,hr,Option.some.inj h⟩

theorem all_pairs_emit {s : System} (h : Consistent app files nReduce s)
    (hmaps : MapsReported files s.job) :
    List.Forall₂ (Emits app.contents app.mapf) files (allPairs app files) := by
  refine List.forall₂_iff_get.mpr ⟨by simp [allPairs],fun i hi hi' => ?_⟩
  obtain ⟨all,hall,-⟩ := h.finished i (hmaps i hi)
  have hpairs : (allPairs app files).get ⟨i,hi'⟩ = all := by
    simp [allPairs, pairs_emitted i all hall]
  rw [hpairs]
  exact emitted_emits i _ all (List.getElem?_eq_getElem hi) hall

theorem gathered_all (p : ℕ) : gathered app files nReduce p files.length =
    part nReduce (allPairs app files).flatten p := by
  rw [gathered, allPairs, part, ← List.flatMap_def, List.filter_flatMap]
  rfl

/-- All partitions are written when all tasks are reported. -/
theorem outputs_reduced {s : System} (h : Produces app files nReduce s)
    (hreduces : ReducesReported nReduce s.job) (p : ℕ) (hp : p < nReduce) :
    s.files.out p = some (reduced app.sort app.reducef nReduce (allPairs app files) p) := by
  rw [h.outputs p (hreduces p hp), output, gathered_all]
  rfl

theorem collect_emits (contents : String → Except FileError String)
    (mapf : String → String → List KeyValue) (files : List String) (outs : List (List KeyValue))
    (h : List.Forall₂ (Emits contents mapf) files outs) (acc : List KeyValue) :
    collect contents mapf files acc = .ok (acc ++ outs.flatten) := by
  induction h generalizing acc with
  | nil => simp [collect]
  | cons hemit _ ih =>
    obtain ⟨content,hr,rfl⟩ := hemit
    simp only [collect, hr, bind, Except.bind, ih, List.flatten_cons, List.append_assoc]

theorem produces_run (fs : Files) (n : ℕ) (es : List Event) (s : System)
    (hm : Meets (step app) CreatesAlone (start files nReduce fs n) es)
    (h : exec (step app) (start files nReduce fs n) es = some s) : Produces app files nReduce s :=
  exec_invariant (step app) CreatesAlone (Produces app files nReduce) produces_step es _ s
    (produces_start fs n) hm h

/-- What is there when the coordinator is done. -/
theorem done_outputs {s : System} (h : Produces app files nReduce s) (hd : s.job.c.done = true) :
    List.Forall₂ (Emits app.contents app.mapf) files (allPairs app files) ∧
      ∀ p < nReduce,
        s.files.out p = some (reduced app.sort app.reducef nReduce (allPairs app files) p) := by
  obtain ⟨hmaps,hreduces⟩ := h.honest.done hd
  exact ⟨all_pairs_emit h.consistent hmaps,outputs_reduced h hreduces⟩

end Result

/-- In every run in which workers open only files of unreported tasks that no
running worker has open, when the coordinator is done every output file is
there, and together they have the lines that mrsequential writes for the input. -/
theorem job_result (app : App) (hf : OrderInsensitive app.reducef) (sort : Sorter)
    (files : List String) (nReduce : ℕ) (hn : 1 ≤ nReduce) (fs : Files) (n : ℕ)
    (es : List Event) (s : System)
    (hm : Meets (step app) CreatesAlone (start files nReduce fs n) es)
    (h : exec (step app) (start files nReduce fs n) es = some s) (hd : s.job.c.done = true) :
    ∃ lines outs, mrsequential app.contents sort.run app.mapf app.reducef files = .ok lines ∧
      (∀ p < nReduce, s.files.out p = some (outs p)) ∧
      (((List.range nReduce).flatMap outs).map line).Perm (lines.map line) := by
  obtain ⟨hemit,hout⟩ := done_outputs (produces_run fs n es s hm h) hd
  refine ⟨reduceSorted app.reducef (sort.run (allPairs app files).flatten),_,?_,hout,?_⟩
  · rw [mrsequential, collect_emits _ _ _ _ hemit]
    rfl
  · apply List.Perm.map
    exact grouped_unique (reduced_grouped app.sort app.reducef hf hn (allPairs app files))
      (reduce_sorted_grouped app.reducef hf sort _)

/-- Two workers are given one map task. The first one dies while it writes,
and a reducer dies before it reports. -/
def unluckyRun : List Event :=
  [.act 0 .getTask,.act 0 .create,.act 0 .create,.act 0 .encode,.resetMap 0,.act 1 .getTask,
    .act 0 .die,.act 1 .create,.act 1 .create,.act 1 .encode,.act 1 .finishTask,
    .evaluate .mapLock,.store .mapLock,.act 1 .getTask,.act 1 .read,.act 1 .rename,.act 1 .die,
    .act 2 .getTask,.act 2 .read,.act 2 .rename,.act 2 .finishTask,.evaluate .reduceLock,
    .store .reduceLock,.resetReduce 1,.act 2 .getTask,.act 2 .read,.act 2 .rename,
    .act 2 .finishTask,.evaluate .reduceLock,.store .reduceLock]

theorem job_result_unlucky : ∃ s,
    exec (step onePair) (start ["pg-tale.txt"] 2 noFiles 3) unluckyRun = some s ∧
    s.job.c.done = true ∧
    ∃ lines outs, mrsequential onePair.contents insertionSorter.run onePair.mapf onePair.reducef
        ["pg-tale.txt"] = .ok lines ∧ (∀ p < 2, s.files.out p = some (outs p)) ∧
      (((List.range 2).flatMap outs).map line).Perm (lines.map line) := by
  have hf : OrderInsensitive onePair.reducef := length_insensitive (fun _ n => toString n)
  obtain ⟨s,hs⟩ := Option.isSome_iff_exists.mp (by decide +kernel :
    (exec (step onePair) (start ["pg-tale.txt"] 2 noFiles 3) unluckyRun).isSome = true)
  have hdone : ∀ s ∈ exec (step onePair) (start ["pg-tale.txt"] 2 noFiles 3) unluckyRun,
      s.job.c.done = true := by
    decide +kernel
  exact ⟨s,hs,hdone s hs,job_result onePair hf insertionSorter ["pg-tale.txt"] 2 (by decide)
    noFiles 3 unluckyRun s (by decide +kernel) hs (hdone s hs)⟩

end Mitdist.MrJob
