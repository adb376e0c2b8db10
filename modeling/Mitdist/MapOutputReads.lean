import Mitdist.MrWorkers

/-!
# What reducers read

A map task that was finished by one worker may be started by another one that
was given the task before, or that was given it when the timer expired. Opening
a file truncates it, so a reducer may then read a file from which pairs are
missing. If a worker opens mr-i-p only while map task i is not reported and no
other worker that is still running has the file open, reducers read all pairs.
-/

set_option autoImplicit false

namespace Mitdist.MapOutputReads
open Mitdist.TransitionSystem Mitdist.RecordFile Mitdist.MapReduce Mitdist.MapOutput
open Mitdist.MapReduceEquivalence Mitdist.CoordinatorRuns Mitdist.MrWorkers
open Mitdist.MrCoordinator (Job Task MapReported report handOut)

def HasOpen (i p : ℕ) : Worker → Prop
  | .mapping _ e _ => e.taskId = i ∧ p < e.mapOutSplit.length
  | _ => False

instance decidableHasOpen (i p : ℕ) : ∀ k : Worker, Decidable (HasOpen i p k)
  | .mapping _ e _ => inferInstanceAs (Decidable (e.taskId = i ∧ p < e.mapOutSplit.length))
  | .idle | .reducing _ _ _ _ | .reduced _ _ | .finishing _ | .dead => .isFalse id

/-- The next file that the worker opens belongs to an unreported task, and no
worker has it open. -/
def Alone (s : System) : Worker → Prop
  | .mapping _ e _ => e.taskId ∉ s.job.c.mapFinished ∧
      ∀ k ∈ s.workers, ¬ HasOpen e.taskId e.mapOutSplit.length k
  | _ => True

instance decidableAlone (s : System) : ∀ k : Worker, Decidable (Alone s k)
  | .mapping _ e _ => inferInstanceAs (Decidable (e.taskId ∉ s.job.c.mapFinished ∧
      ∀ k ∈ s.workers, ¬ HasOpen e.taskId e.mapOutSplit.length k))
  | .idle | .reducing _ _ _ _ | .reduced _ _ | .finishing _ | .dead => .isTrue trivial

def CreatesAlone (s : System) : Event → Prop
  | .act w .create => ∀ k ∈ s.workers[w]?, Alone s k
  | _ => True

instance decidableCreatesAlone (s : System) : ∀ e : Event, Decidable (CreatesAlone s e)
  | .act w .create => inferInstanceAs (Decidable (∀ k ∈ s.workers[w]?, Alone s k))
  | .act _ .getTask | .act _ .encode | .act _ .read | .act _ .rename | .act _ .finishTask
  | .act _ .die | .evaluate _ | .store _ | .resetMap _ | .resetReduce _ => .isTrue trivial

section Reads
variable (app : App) (files : List String) (nReduce : ℕ)

/-- The pairs of a map task. -/
def emitted (i : ℕ) : Option (List KeyValue) :=
  (files[i]?).bind (fun filename =>
    match readInput app.contents filename with
    | .ok content => some (app.mapf filename content)
    | .error _ => none)

/-- What a worker knows about its task and its files. -/
def Serves (job : Job) (fs : Files) : Worker → Prop
  | .mapping filename e kvs => Task.mapTaskReply filename e.nReduce e.taskId ∈ job.handed ∧
      ∃ all, emitted app files e.taskId = some all ∧ Encodes e.taskId nReduce all kvs e fs
  | .reducing p m _ _ => Task.reduceTaskReply p m ∈ job.handed
  | .reduced p m => Task.reduceTaskReply p m ∈ job.handed
  | .idle | .finishing _ | .dead => True

def Complete (fs : Files) (i : ℕ) : Prop :=
  ∃ all, emitted app files i = some all ∧
    ∀ p < nReduce, Filled (part nReduce all p) (part nReduce all p).length fs i p

structure Consistent (s : System) : Prop where
  phased : Phased files nReduce s.job
  workers : ∀ k ∈ s.workers, Serves app files nReduce s.job s.files k
  finished : ∀ i, MapReported s.job i → Complete app files nReduce s.files i

variable {app files nReduce}

theorem serves_handed {job job' : Job} {fs : Files} {k : Worker} (h : job.handed ⊆ job'.handed)
    (hk : Serves app files nReduce job fs k) : Serves app files nReduce job' fs k := by
  cases k with
  | mapping filename e kvs => exact ⟨h hk.1,hk.2⟩
  | reducing p m i kva => exact h hk
  | reduced p m => exact h hk
  | idle | finishing l | dead => trivial

/-- A step keeps the files that the workers have open and the files of the
reported tasks, and it changes one worker. -/
theorem consistent_set {s : System} (h : Consistent app files nReduce s) (w : ℕ) (k : Worker)
    (job : Job) (fs : Files) (hphased : Phased files nReduce job)
    (hgrow : s.job.handed ⊆ job.handed)
    (hframe : ∀ v ∈ s.workers, Serves app files nReduce s.job s.files v →
      Serves app files nReduce s.job fs v)
    (hfin : ∀ i, MapReported job i → Complete app files nReduce fs i)
    (hk : Serves app files nReduce job fs k) :
    Consistent app files nReduce ⟨job,fs,s.workers.set w k⟩ := by
  constructor
  · exact hphased
  · intro v hv
    rcases List.mem_or_eq_of_mem_set hv with hv | rfl
    · exact serves_handed hgrow (hframe v hv (h.workers v hv))
    · exact hk
  · exact hfin

theorem hand_out_grows (x : Job) (c : MrCoordinator.Coordinator) (found : Option Task) :
    x.handed ⊆ (handOut x c found).handed := by
  rw [hand_out_handed]
  exact List.subset_append_left _ _

theorem begun_serves {job : Job} (h : Phased files nReduce job) (fs : Files) (found : Option Task)
    (hf : ∀ task ∈ found, task ∈ job.handed) :
    Serves app files nReduce job fs (begun app found) := by
  cases found with
  | none => trivial
  | some task =>
    have hmem := hf task rfl
    cases task with
    | mapTaskReply filename k t =>
      obtain ⟨hfile,rfl⟩ := h.handed _ hmem
      rw [begun, beginTask]
      cases hr : readInput app.contents filename with
      | error msg => trivial
      | ok content =>
        exact ⟨hmem,app.mapf filename content,by simp [emitted, hfile, hr],
          encodes_begin t k _ fs⟩
    | reduceTaskReply p m => exact hmem
    | terminateTaskReply => trivial

theorem serves_files {job : Job} {fs fs' : Files} {k : Worker}
    (hk : Serves app files nReduce job fs k)
    (hkeep : ∀ i p all m, emitted app files i = some all → HasOpen i p k →
      Filled (part nReduce all p) m fs i p → Filled (part nReduce all p) m fs' i p) :
    Serves app files nReduce job fs' k := by
  cases k with
  | mapping filename e kvs =>
    obtain ⟨hmem,all,hall,henc⟩ := hk
    refine ⟨hmem,all,hall,henc.task,henc.reduces,henc.progress,?_⟩
    intro p pos hp
    have hopen : HasOpen e.taskId p (.mapping filename e kvs) :=
      ⟨rfl,(List.getElem?_eq_some_iff.mp hp).1⟩
    have hfilled := henc.holds p pos hp
    rw [henc.reduces] at hfilled ⊢
    exact hkeep e.taskId p all pos hall hopen hfilled
  | reducing p m i kva => exact hk
  | reduced p m => exact hk
  | idle | finishing l | dead => trivial

theorem complete_files {fs fs' : Files} {i : ℕ} (h : Complete app files nReduce fs i)
    (hkeep : ∀ p all m, emitted app files i = some all →
      Filled (part nReduce all p) m fs i p → Filled (part nReduce all p) m fs' i p) :
    Complete app files nReduce fs' i := by
  obtain ⟨all,hall,hfilled⟩ := h
  exact ⟨all,hall,fun p hp => hkeep p all _ hall (hfilled p hp)⟩

/-- Opening a file truncates no file that is needed. -/
theorem create_consistent {s : System} (h : Consistent app files nReduce s) (w : ℕ)
    (filename : String) (e : Encoder) (kvs : List KeyValue)
    (hk : Serves app files nReduce s.job s.files (.mapping filename e kvs))
    (hlt : e.mapOutSplit.length < e.nReduce) (halone : Alone s (.mapping filename e kvs)) :
    Consistent app files nReduce
      ⟨s.job,(createNext e s.files).2,
        s.workers.set w (.mapping filename (createNext e s.files).1 kvs)⟩ := by
  obtain ⟨hnew,hnone⟩ := halone
  obtain ⟨hmem,all,hall,henc⟩ := hk
  apply consistent_set h w _ s.job _ h.phased (List.Subset.refl _)
  · intro v hv hserves
    apply serves_files hserves
    intro i p all' m _ hopen hfilled
    apply filled_create_other _ m e s.files i p ?_ hfilled
    rintro ⟨rfl,rfl⟩
    exact hnone v hv hopen
  · intro i hi
    apply complete_files (h.finished i hi)
    intro p all' m _ hfilled
    apply filled_create_other _ m e s.files i p ?_ hfilled
    rintro ⟨rfl,-⟩
    exact hnew ((h.phased.tracks.mapReported _).mpr hi)
  · rw [henc.reduces] at hlt
    exact ⟨hmem,all,hall,create_next_encodes e.taskId nReduce all kvs e s.files hlt henc⟩

/-- All workers on a map task write the same records to the same places. -/
theorem encode_consistent {s : System} (h : Consistent app files nReduce s) (w : ℕ)
    (filename : String) (e e' : Encoder) (kv : KeyValue) (kvs : List KeyValue) (fs : Files)
    (hk : Serves app files nReduce s.job s.files (.mapping filename e (kv::kvs)))
    (hopen : e.mapOutSplit.length = e.nReduce) (hone : encodeOne e s.files kv = some (e', fs)) :
    Consistent app files nReduce ⟨s.job,fs,s.workers.set w (.mapping filename e' kvs)⟩ := by
  obtain ⟨hmem,all,hall,henc⟩ := hk
  have hnext := encode_one_encodes e.taskId nReduce all kvs kv e e' s.files fs
    (hopen.trans henc.reduces) henc hone
  obtain ⟨pos,hpos,rfl,rfl⟩ := encode_one_outcome e e' s.files fs kv hone
  have hrecord := record_position all kvs kv e pos henc.progress hpos
  have hkeep : ∀ i p all' m, emitted app files i = some all' →
      Filled (part nReduce all' p) m s.files i p →
      Filled (part nReduce all' p) m
        (encodeAt s.files e.taskId (ihash kv.key % e.nReduce) pos kv) i p := by
    intro i p all' m hall' hfilled
    apply filled_encode _ m s.files i p _ _ pos kv ?_ hfilled
    rintro rfl rfl
    rw [hall] at hall'
    rw [← Option.some.inj hall', ← henc.reduces]
    exact hrecord
  apply consistent_set h w _ s.job _ h.phased (List.Subset.refl _)
  · intro v _ hserves
    exact serves_files hserves (fun i p all' m hall' _ => hkeep i p all' m hall')
  · intro i hi
    exact complete_files (h.finished i hi) (fun p all' m => hkeep i p all' m)
  · exact ⟨hmem,all,hall,hnext.1⟩

/-- A worker that reports a map task must have written all pairs of it. -/
theorem finish_consistent {s : System} (h : Consistent app files nReduce s) (w : ℕ) (task : Task)
    (job : Job) (l : MrCoordinator.Lock) (hmem : task ∈ s.job.handed)
    (hjob : MrCoordinator.step s.job (.finishTask task) = some job)
    (hcomplete : ∀ f k i, task = .mapTaskReply f k i → Complete app files nReduce s.files i) :
    Consistent app files nReduce ⟨job,s.files,s.workers.set w (.finishing l)⟩ := by
  have hphased := phased_step files nReduce s.job (.finishTask task) job h.phased hmem hjob
  cases MrCoordinator.step_outcome s.job job _ hjob with
  | finishTask _ hfree =>
    apply consistent_set h w (.finishing l) _ _ hphased (List.Subset.refl _)
      (fun _ _ hserves => hserves) ?_ trivial
    intro i hi
    rcases (map_reported_report s.job task i).mp hi with hold | ⟨f,k,heq⟩
    · exact h.finished i hold
    · exact hcomplete f k i heq.symm

theorem get_task_consistent {s : System} (h : Consistent app files nReduce s) (w : ℕ) (job : Job)
    (found : Option Task) (hg : MrCoordinator.getTask s.job = some (job, found)) :
    Consistent app files nReduce ⟨job,s.files,s.workers.set w (begun app found)⟩ := by
  have hphased := phased_step files nReduce s.job .getTask job h.phased trivial
    (congrArg (Option.map Prod.fst) hg)
  obtain ⟨c,hf,rfl⟩ := MrCoordinator.get_task_outcome s.job job found hg
  have hreported : (handOut s.job c found).reported = s.job.reported := by
    cases hf <;> rfl
  apply consistent_set h w _ _ _ hphased (hand_out_grows s.job c found) (fun _ _ hserves => hserves)
  · intro i hi
    rw [MapReported, hreported] at hi
    exact h.finished i hi
  · apply begun_serves hphased
    intro task ht
    rw [hand_out_handed]
    exact List.mem_append_right _ (Option.mem_toList.mpr ht)

theorem coordinator_consistent {s : System} (h : Consistent app files nReduce s)
    (e : MrCoordinator.Event) (job : Job) (workers : List Worker) (hc : HandedOut s.job e)
    (hs : MrCoordinator.step s.job e = some job) (hjob : job.handed = s.job.handed)
    (hreported : job.reported = s.job.reported)
    (hworkers : ∀ k ∈ workers, k ∈ s.workers ∨ k = .idle) :
    Consistent app files nReduce ⟨job,s.files,workers⟩ := by
  constructor
  · exact phased_step files nReduce s.job e job h.phased hc hs
  · intro k hk
    rcases hworkers k hk with hk | rfl
    · exact serves_handed (by rw [hjob]; exact List.Subset.refl _) (h.workers k hk)
    · trivial
  · intro i hi
    rw [MapReported, hreported] at hi
    exact h.finished i hi

theorem consistent_step (s : System) (e : Event) (s' : System)
    (h : Consistent app files nReduce s) (hc : CreatesAlone s e) (hs : step app s e = some s') :
    Consistent app files nReduce s' := by
  cases step_outcome app s s' e hs with
  | coordinator _ e' job workers hc' _ hj hhanded hreported hworkers =>
    exact coordinator_consistent h e' job workers hc' hj hhanded hreported hworkers
  | act w a k _ hk hact =>
    have hserves := h.workers k (List.mem_of_getElem? hk)
    have hstay : ∀ k', Serves app files nReduce s.job s.files k' →
        Consistent app files nReduce ⟨s.job,s.files,s.workers.set w k'⟩ :=
      fun k' hk' => consistent_set h w k' _ _ h.phased (List.Subset.refl _)
        (fun _ _ hserves => hserves) h.finished hk'
    cases hact with
    | getTask job found hg => exact get_task_consistent h w job found hg
    | create filename e kvs hlt =>
      exact create_consistent h w filename e kvs hserves hlt (hc _ hk)
    | encode filename e e' kv kvs fs hopen hone =>
      exact encode_consistent h w filename e e' kv kvs fs hserves hopen hone
    | finishMap filename e job hopen hjob =>
      obtain ⟨hmem,all,hall,henc⟩ := hserves
      refine finish_consistent h w _ job _ hmem hjob (fun f k i heq => ?_)
      obtain ⟨-,-,rfl⟩ := Task.mapTaskReply.inj heq
      have hcomplete := holds_complete all e s.files hopen henc.progress henc.holds
      rw [henc.reduces] at hcomplete
      exact ⟨all,hall,hcomplete⟩
    | read p m i kva cells hlt hfile => exact hstay (.reducing p m _ _) hserves
    | rename p m i kva hge =>
      exact consistent_set h w (.reduced p m) _ _ h.phased (List.Subset.refl _)
        (fun _ _ hserves => serves_files hserves (fun _ _ _ _ _ _ hfilled => hfilled))
        (fun i hi => complete_files (h.finished i hi) (fun _ _ _ _ hfilled => hfilled)) hserves
    | finishReduce p m job hjob =>
      exact finish_consistent h w _ job _ hserves hjob (fun f k i heq => by cases heq)
    | stop => exact hstay .dead trivial

theorem consistent_start (fs : Files) (n : ℕ) :
    Consistent app files nReduce (start files nReduce fs n) := by
  constructor
  · exact phased_start files nReduce
  · intro k hk
    obtain rfl := List.eq_of_mem_replicate hk
    trivial
  · intro i hi
    simp [MapReported, start, MrCoordinator.start] at hi

/-- The file that a reducer reads next has all pairs of its map task. -/
theorem reads_complete {s : System} (h : Consistent app files nReduce s) (p m i : ℕ)
    (kva : List KeyValue) (hk : Worker.reducing p m i kva ∈ s.workers) (hi : i < m) :
    ∃ all, emitted app files i = some all ∧
      (s.files.intermediate (i, p)).map readAll = some (part nReduce all p) := by
  obtain ⟨hp,rfl,hmaps⟩ := h.phased.handed _ (h.workers _ hk)
  obtain ⟨all,hall,hfilled⟩ := h.finished i (hmaps i hi)
  obtain ⟨cells,hc,hw⟩ := hfilled p hp
  refine ⟨all,hall,?_⟩
  rw [hc, Option.map_some, read_all_written _ cells hw]

end Reads

/-- In every run in which workers open only files of unreported tasks that no
running worker has open, a reducer reads all pairs of each map task that belong
to its partition. -/
theorem reducers_read_all (app : App) (files : List String) (nReduce : ℕ) (fs : Files) (n : ℕ)
    (es : List Event) (s : System)
    (hm : Meets (step app) CreatesAlone (start files nReduce fs n) es)
    (h : exec (step app) (start files nReduce fs n) es = some s) :
    ∀ p m i kva, Worker.reducing p m i kva ∈ s.workers → i < m →
      ∃ all, emitted app files i = some all ∧
        (s.files.intermediate (i, p)).map readAll = some (part nReduce all p) := by
  have hs := exec_invariant (step app) CreatesAlone (Consistent app files nReduce)
    consistent_step es _ s (consistent_start fs n) hm h
  intro p m i kva hk hi
  exact reads_complete hs p m i kva hk hi

/-- One pair is emitted for every input file. -/
def onePair : App where
  contents := fun _ => .ok "it was the best of times"
  mapf := fun _ content => [⟨content,"1"⟩]
  reducef := fun _ values => toString values.length
  sort := insertionSorter

def noFiles : Files := ⟨fun _ => none,fun _ => none⟩

/-- The first worker dies after it opened the file, and the task is done again. -/
theorem reducers_read_all_retried :
    let es : List Event := [.act 0 .getTask,.act 0 .create,.act 0 .die,.resetMap 0,.act 1 .getTask,
      .act 1 .create,.act 1 .encode,.act 1 .finishTask,.act 2 .getTask,.evaluate .mapLock,
      .store .mapLock]
    Meets (step onePair) CreatesAlone (start ["pg-tale.txt"] 1 noFiles 3) es ∧
      ∃ s, exec (step onePair) (start ["pg-tale.txt"] 1 noFiles 3) es = some s ∧
        s.workers = [.dead,.idle,.reducing 0 1 0 []] ∧
        ∃ all, emitted onePair ["pg-tale.txt"] 0 = some all ∧
          (s.files.intermediate (0, 0)).map readAll = some (part 1 all 0) := by
  intro es
  have hm : Meets (step onePair) CreatesAlone (start ["pg-tale.txt"] 1 noFiles 3) es := by
    decide +kernel
  have hsome : (exec (step onePair) (start ["pg-tale.txt"] 1 noFiles 3) es).isSome := by
    decide +kernel
  have hworkers : ∀ s ∈ exec (step onePair) (start ["pg-tale.txt"] 1 noFiles 3) es,
      s.workers = [.dead,.idle,.reducing 0 1 0 []] := by
    decide +kernel
  obtain ⟨s,hs⟩ := Option.isSome_iff_exists.mp hsome
  have hreads := reducers_read_all onePair ["pg-tale.txt"] 1 noFiles 3 es s hm hs 0 1 0 []
    (by rw [hworkers s hs]; simp) (by decide)
  exact ⟨hm,s,hs,hworkers s hs,hreads⟩

/-- The timer of a slow worker expires, another worker does its task and reports
it, and a reduce task is handed out. The slow worker opens its file then, and
the reducer finds it empty. -/
theorem straggler_truncates :
    let pair : KeyValue := ⟨"it was the best of times","1"⟩
    let es : List Event := [.act 0 .getTask,.resetMap 0,.act 1 .getTask,.act 1 .create,
      .act 1 .encode,.act 1 .finishTask,.act 2 .getTask,.act 0 .create]
    ∃ s, exec (step onePair) (start ["pg-tale.txt"] 1 noFiles 3) es = some s ∧
      Worker.reducing 0 1 0 [] ∈ s.workers ∧ emitted onePair ["pg-tale.txt"] 0 = some [pair] ∧
      part 1 [pair] 0 = [pair] ∧ (s.files.intermediate (0, 0)).map readAll = some [] := by
  intro pair es
  have hsome : (exec (step onePair) (start ["pg-tale.txt"] 1 noFiles 3) es).isSome := by
    decide +kernel
  have hall : ∀ s ∈ exec (step onePair) (start ["pg-tale.txt"] 1 noFiles 3) es,
      Worker.reducing 0 1 0 [] ∈ s.workers ∧
        (s.files.intermediate (0, 0)).map readAll = some [] := by
    decide +kernel
  obtain ⟨s,hs⟩ := Option.isSome_iff_exists.mp hsome
  obtain ⟨hreducing,hempty⟩ := hall s hs
  exact ⟨s,hs,hreducing,rfl,by decide +kernel,hempty⟩

end Mitdist.MapOutputReads
