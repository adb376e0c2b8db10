import Mitdist.CoordinatorRuns
import Mitdist.MapReduceEquivalence

/-!
# Workers, coordinator and files

Any number of workers ask one coordinator for tasks and share the files mr-i-p.
Opening or truncating a file, writing a pair, reading a file, renaming the
output of a reduce task and every step of the coordinator is one step, and the
steps of different workers interleave. A worker that reports a task waits until
its report has stored the flag. The timer of a task knows nothing of the worker
that has it, so several workers may execute one map task at a time, each with
its own position in the files. A worker may die between any two steps.
-/

set_option autoImplicit false

namespace Mitdist.MrWorkers
open Mitdist.RecordFile Mitdist.MrCoordinator Mitdist.CoordinatorRuns Mitdist.MapReduce
open Mitdist.MapReduceEquivalence

/-- The input files, the two functions of the application and sort.Sort. -/
structure App where
  contents : String → Except FileError String
  mapf : String → String → List KeyValue
  reducef : String → List String → String
  sort : Sorter

inductive Worker
  | idle
  | mapping (filename : String) (e : Encoder) (kvs : List KeyValue)
  | reducing (partition nMappers i : ℕ) (kva : List KeyValue)
  | reduced (partition nMappers : ℕ)
  | finishing (l : Lock)
  | dead
  deriving DecidableEq

structure System where
  job : Job
  files : Files
  workers : List Worker

inductive Action
  | getTask
  | create
  | encode
  | read
  | rename
  | finishTask
  | die

inductive Event
  | act (w : ℕ) (a : Action)
  | evaluate (l : Lock)
  | store (l : Lock)
  | resetMap (taskId : ℕ)
  | resetReduce (partition : ℕ)

/-- A job whose directory may have files of an earlier one. -/
def start (files : List String) (nReduce : ℕ) (fs : Files) (n : ℕ) : System :=
  ⟨MrCoordinator.start files nReduce,fs,List.replicate n .idle⟩

/-- A map task reads its input file and calls the map function first. -/
def beginTask (app : App) : Task → Worker
  | .mapTaskReply filename nReduce taskId =>
    match readInput app.contents filename with
    | .ok content => .mapping filename ⟨taskId,nReduce,[]⟩ (app.mapf filename content)
    | .error _ => .dead
  | .reduceTaskReply partition nMappers => .reducing partition nMappers 0 []
  | .terminateTaskReply => .dead

def begun (app : App) : Option Task → Worker
  | some task => beginTask app task
  | none => .idle

def act (app : App) (s : System) (w : ℕ) : Action → Worker → Option System
  | .getTask, .idle => (getTask s.job).map (fun r =>
      { s with job := r.1, workers := s.workers.set w (begun app r.2) })
  | .create, .mapping filename e kvs =>
    if e.mapOutSplit.length < e.nReduce then
      some { s with
        files := (createNext e s.files).2
        workers := s.workers.set w (.mapping filename (createNext e s.files).1 kvs) }
    else none
  | .encode, .mapping filename e (kv::kvs) =>
    if e.mapOutSplit.length = e.nReduce then
      match encodeOne e s.files kv with
      | some (e', fs) =>
        some { s with files := fs, workers := s.workers.set w (.mapping filename e' kvs) }
      | none => some { s with workers := s.workers.set w .dead }
    else none
  | .finishTask, .mapping filename e [] =>
    if e.mapOutSplit.length = e.nReduce then
      (MrCoordinator.step s.job (.finishTask (.mapTaskReply filename e.nReduce e.taskId))).map
        (fun job => { s with job := job, workers := s.workers.set w (.finishing .mapLock) })
    else none
  | .read, .reducing partition nMappers i kva =>
    if i < nMappers then
      match s.files.intermediate (i, partition) with
      | some cells => some { s with
          workers := s.workers.set w (.reducing partition nMappers (i + 1) (kva ++ readAll cells)) }
      | none => some { s with workers := s.workers.set w .dead }
    else none
  | .rename, .reducing partition nMappers i kva =>
    if i < nMappers then none
    else some { s with
      files := { s.files with
        out := Function.update s.files.out partition
          (some (reduceSorted app.reducef (app.sort.run kva))) }
      workers := s.workers.set w (.reduced partition nMappers) }
  | .finishTask, .reduced partition nMappers =>
    (MrCoordinator.step s.job (.finishTask (.reduceTaskReply partition nMappers))).map
      (fun job => { s with job := job, workers := s.workers.set w (.finishing .reduceLock) })
  | .die, _ => some { s with workers := s.workers.set w .dead }
  | _, _ => none

/-- The worker whose report held the mutex goes on. -/
def replied (l : Lock) : Worker → Worker
  | .finishing k => if k = l then .idle else .finishing k
  | k => k

def step (app : App) (s : System) : Event → Option System
  | .act w a => (s.workers[w]?).bind (act app s w a)
  | .evaluate l => (MrCoordinator.step s.job (.evaluate l)).map (fun job =>
      { s with job := job })
  | .store l => (MrCoordinator.step s.job (.store l)).map (fun job =>
      { s with job := job, workers := s.workers.map (replied l) })
  | .resetMap taskId => (MrCoordinator.step s.job (.resetMap taskId)).map (fun job =>
      { s with job := job })
  | .resetReduce partition => (MrCoordinator.step s.job (.resetReduce partition)).map (fun job =>
      { s with job := job })

/-- What one step of a worker can do. -/
inductive Acts (app : App) (s : System) (w : ℕ) : Action → Worker → System → Prop
  | getTask (job : Job) (found : Option Task) (h : getTask s.job = some (job, found)) :
      Acts app s w .getTask .idle
        { s with job := job, workers := s.workers.set w (begun app found) }
  | create (filename : String) (e : Encoder) (kvs : List KeyValue)
      (h : e.mapOutSplit.length < e.nReduce) : Acts app s w .create (.mapping filename e kvs)
        { s with
          files := (createNext e s.files).2
          workers := s.workers.set w (.mapping filename (createNext e s.files).1 kvs) }
  | encode (filename : String) (e e' : Encoder) (kv : KeyValue) (kvs : List KeyValue)
      (fs : Files) (h : e.mapOutSplit.length = e.nReduce)
      (hone : encodeOne e s.files kv = some (e', fs)) :
      Acts app s w .encode (.mapping filename e (kv::kvs))
        { s with files := fs, workers := s.workers.set w (.mapping filename e' kvs) }
  | finishMap (filename : String) (e : Encoder) (job : Job)
      (h : e.mapOutSplit.length = e.nReduce)
      (hjob : MrCoordinator.step s.job
        (.finishTask (.mapTaskReply filename e.nReduce e.taskId)) = some job) :
      Acts app s w .finishTask (.mapping filename e [])
        { s with job := job, workers := s.workers.set w (.finishing .mapLock) }
  | read (partition nMappers i : ℕ) (kva : List KeyValue) (cells : List (Option KeyValue))
      (h : i < nMappers) (hfile : s.files.intermediate (i, partition) = some cells) :
      Acts app s w .read (.reducing partition nMappers i kva)
        { s with
          workers := s.workers.set w (.reducing partition nMappers (i + 1) (kva ++ readAll cells)) }
  | rename (partition nMappers i : ℕ) (kva : List KeyValue) (h : ¬ i < nMappers) :
      Acts app s w .rename (.reducing partition nMappers i kva)
        { s with
          files := { s.files with
            out := Function.update s.files.out partition
              (some (reduceSorted app.reducef (app.sort.run kva))) }
          workers := s.workers.set w (.reduced partition nMappers) }
  | finishReduce (partition nMappers : ℕ) (job : Job)
      (hjob : MrCoordinator.step s.job
        (.finishTask (.reduceTaskReply partition nMappers)) = some job) :
      Acts app s w .finishTask (.reduced partition nMappers)
        { s with job := job, workers := s.workers.set w (.finishing .reduceLock) }
  | stop (a : Action) (k : Worker) : Acts app s w a k { s with workers := s.workers.set w .dead }

theorem act_outcome (app : App) (s s' : System) (w : ℕ) (a : Action) (k : Worker)
    (h : act app s w a k = some s') : Acts app s w a k s' := by
  revert h
  fun_cases act app s w a k with
  | case1 =>
    intro h
    obtain ⟨⟨job,found⟩,hg,rfl⟩ := Option.map_eq_some_iff.mp h
    exact .getTask job found hg
  | case2 filename e kvs hlt =>
    rintro ⟨⟩
    exact .create filename e kvs hlt
  | case4 filename e kv kvs hopen e' fs hone =>
    rintro ⟨⟩
    exact .encode filename e e' kv kvs fs hopen hone
  | case7 filename e hopen =>
    intro h
    obtain ⟨job,hj,rfl⟩ := Option.map_eq_some_iff.mp h
    exact .finishMap filename e job hopen hj
  | case9 p m i kva hlt cells hfile =>
    rintro ⟨⟩
    exact .read p m i kva cells hlt hfile
  | case13 p m i kva hge =>
    rintro ⟨⟩
    exact .rename p m i kva hge
  | case14 p m =>
    intro h
    obtain ⟨job,hj,rfl⟩ := Option.map_eq_some_iff.mp h
    exact .finishReduce p m job hj
  | case5 | case10 | case15 =>
    rintro ⟨⟩
    exact .stop _ _
  | case3 | case6 | case8 | case11 | case12 | case16 =>
    intro h
    cases h

theorem coordinator_keeps (x y : Job) (e : MrCoordinator.Event) (hget : e ≠ .getTask)
    (hfinish : ∀ task, e ≠ .finishTask task) (h : MrCoordinator.step x e = some y) :
    y.handed = x.handed ∧ y.reported = x.reported := by
  cases MrCoordinator.step_outcome x y e h with
  | getTask c found hf => exact absurd rfl hget
  | finishTask task _ => exact absurd rfl (hfinish task)
  | evaluate l hl => exact ⟨rfl,rfl⟩
  | store l done hl => exact ⟨rfl,rfl⟩
  | resetMap t ht => exact ⟨rfl,rfl⟩
  | resetReduce p hp => exact ⟨rfl,rfl⟩

theorem replied_cases (l : Lock) (k : Worker) : replied l k = k ∨ replied l k = .idle := by
  cases k with
  | finishing k =>
    rw [replied]
    split_ifs
    · exact .inr rfl
    · exact .inl rfl
  | _ => exact .inl rfl

/-- What one step of the system can do. -/
inductive Steps (app : App) (s : System) : Event → System → Prop
  | act (w : ℕ) (a : Action) (k : Worker) (s' : System) (hk : s.workers[w]? = some k)
      (h : Acts app s w a k s') : Steps app s (.act w a) s'
  | coordinator (e : Event) (e' : MrCoordinator.Event) (job : Job) (workers : List Worker)
      (hc : HandedOut s.job e') (ha : Apart s.job e') (h : MrCoordinator.step s.job e' = some job)
      (hhanded : job.handed = s.job.handed) (hreported : job.reported = s.job.reported)
      (hworkers : ∀ k ∈ workers, k ∈ s.workers ∨ k = .idle) :
      Steps app s e { s with job := job, workers := workers }

theorem step_outcome (app : App) (s s' : System) (e : Event) (h : step app s e = some s') :
    Steps app s e s' := by
  cases e with
  | act w a =>
    obtain ⟨k,hk,ha⟩ := Option.bind_eq_some_iff.mp h
    exact .act w a k s' hk (act_outcome app s s' w a k ha)
  | evaluate l =>
    obtain ⟨job,hj,rfl⟩ := Option.map_eq_some_iff.mp h
    obtain ⟨hhanded,hreported⟩ := coordinator_keeps s.job job (.evaluate l) nofun nofun hj
    exact .coordinator _ (.evaluate l) job _ trivial trivial hj hhanded hreported
      (fun k hk => .inl hk)
  | store l =>
    obtain ⟨job,hj,rfl⟩ := Option.map_eq_some_iff.mp h
    obtain ⟨hhanded,hreported⟩ := coordinator_keeps s.job job (.store l) nofun nofun hj
    refine .coordinator _ (.store l) job _ trivial trivial hj hhanded hreported (fun k hk => ?_)
    obtain ⟨v,hv,rfl⟩ := List.mem_map.mp hk
    rcases replied_cases l v with hsame | hidle
    · exact .inl (by rwa [hsame])
    · exact .inr hidle
  | resetMap t =>
    obtain ⟨job,hj,rfl⟩ := Option.map_eq_some_iff.mp h
    obtain ⟨hhanded,hreported⟩ := coordinator_keeps s.job job (.resetMap t) nofun nofun hj
    exact .coordinator _ (.resetMap t) job _ trivial trivial hj hhanded hreported
      (fun k hk => .inl hk)
  | resetReduce p =>
    obtain ⟨job,hj,rfl⟩ := Option.map_eq_some_iff.mp h
    obtain ⟨hhanded,hreported⟩ := coordinator_keeps s.job job (.resetReduce p) nofun nofun hj
    exact .coordinator _ (.resetReduce p) job _ trivial trivial hj hhanded hreported
      (fun k hk => .inl hk)

/-- The task that a worker is about to report. -/
def finishes : Worker → Option Task
  | .mapping filename e [] => some (.mapTaskReply filename e.nReduce e.taskId)
  | .reduced partition nMappers => some (.reduceTaskReply partition nMappers)
  | _ => none

/-- The report of the last outstanding task does not overtake another one. -/
def ReportsApart (s : System) : Event → Prop
  | .act w .finishTask => ∀ k ∈ s.workers[w]?, ∀ task ∈ finishes k, Apart s.job (.finishTask task)
  | _ => True

instance decidableReportsApart (s : System) : ∀ e : Event, Decidable (ReportsApart s e)
  | .act w .finishTask => inferInstanceAs (Decidable
      (∀ k ∈ s.workers[w]?, ∀ task ∈ finishes k, Apart s.job (.finishTask task)))
  | .act _ .getTask | .act _ .create | .act _ .encode | .act _ .read | .act _ .rename
  | .act _ .die | .evaluate _ | .store _ | .resetMap _ | .resetReduce _ => .isTrue trivial

/-- A step of the system is a step of the coordinator or none. -/
theorem job_steps (app : App) (s s' : System) (e : Event) (h : step app s e = some s') :
    s'.job = s.job ∨ ∃ e', MrCoordinator.step s.job e' = some s'.job ∧
      (ReportsApart s e → Apart s.job e') := by
  cases step_outcome app s s' e h with
  | coordinator _ e' job workers _ ha hj _ _ _ => exact .inr ⟨e',hj,fun _ => ha⟩
  | act w a k _ hk hact =>
    cases hact with
    | getTask job found hg =>
      exact .inr ⟨.getTask,congrArg (Option.map Prod.fst) hg,fun _ => trivial⟩
    | finishMap filename e job hopen hj => exact .inr ⟨_,hj,fun ha => ha _ hk _ rfl⟩
    | finishReduce p m job hj => exact .inr ⟨_,hj,fun ha => ha _ hk _ rfl⟩
    | create | encode | read | rename | stop => exact .inl rfl

theorem job_honest (app : App) (files : List String) (nReduce : ℕ) (s s' : System) (e : Event)
    (hp : Phased files nReduce s.job) (hh : Honest files nReduce s.job)
    (h : step app s e = some s') : Honest files nReduce s'.job := by
  rcases job_steps app s s' e h with hsame | ⟨e',hj,-⟩
  · rwa [hsame]
  · exact honest_step files nReduce s.job e' s'.job hp hh hj

theorem job_prompt (app : App) (s s' : System) (e : Event) (hp : Prompt s.job)
    (ha : ReportsApart s e) (h : step app s e = some s') : Prompt s'.job := by
  rcases job_steps app s s' e h with hsame | ⟨e',hj,he⟩
  · rwa [hsame]
  · exact prompt_step s.job e' s'.job hp (he ha) hj

end Mitdist.MrWorkers
