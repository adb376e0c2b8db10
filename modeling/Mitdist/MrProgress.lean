import Mitdist.MapOutputReads
import Mitdist.Progress
import Mitdist.TaskReissue

/-!
# Jobs can be completed

A task that is not reported is in its queue or has a timer, and every file that
a reducer needs exists once the map tasks are reported. If the report of the
last task did not overtake another one, the reports in progress leave the flag
right when they end. From every state that such a job can reach, one idle worker
can therefore complete it with the help of the timers, whatever the other
workers are doing and however many of them died.
-/

set_option autoImplicit false

namespace Mitdist.MrProgress
open Mitdist.TransitionSystem Mitdist.Progress Mitdist.MapReduce Mitdist.MapOutput
open Mitdist.MapReduceEquivalence Mitdist.CoordinatorRuns Mitdist.MrWorkers Mitdist.TaskPool
open Mitdist.MapOutputReads (onePair noFiles hand_out_grows)
open Mitdist.MrCoordinator (Job Task Lock MapReported ReduceReported report evaluate store
  allFinished lockOf handOut getTask mapPool reducePool step_evaluate step_store evaluate_locks
  store_locks)
open Mitdist.TaskReissue (get_task_map get_task_reduce)

def Has (fs : Files) (i k : ℕ) : Prop := ∀ p < k, (fs.intermediate (i, p)).isSome

section Tracked
variable (files : List String) (nReduce : ℕ)

/-- A worker has a task that was handed out, and the files that it opened are
there. -/
def Holds (job : Job) (fs : Files) : Worker → Prop
  | .mapping filename e _ => Task.mapTaskReply filename e.nReduce e.taskId ∈ job.handed ∧
      e.mapOutSplit.length ≤ e.nReduce ∧ Has fs e.taskId e.mapOutSplit.length
  | .reducing p m _ _ => Task.reduceTaskReply p m ∈ job.handed
  | .reduced p m => Task.reduceTaskReply p m ∈ job.handed
  | .idle | .finishing _ | .dead => True

structure Tracked (s : System) : Prop where
  phased : Phased files nReduce s.job
  prompt : Prompt s.job
  workers : ∀ k ∈ s.workers, Holds s.job s.files k
  finished : ∀ i, MapReported s.job i → Has s.files i nReduce

variable {files nReduce}

theorem has_mono {fs fs' : Files}
    (h : ∀ x, (fs.intermediate x).isSome → (fs'.intermediate x).isSome) (i k : ℕ)
    (hh : Has fs i k) : Has fs' i k :=
  fun p hp => h _ (hh p hp)

theorem holds_mono {job job' : Job} {fs fs' : Files} (hj : job.handed ⊆ job'.handed)
    (h : ∀ x, (fs.intermediate x).isSome → (fs'.intermediate x).isSome) (k : Worker)
    (hk : Holds job fs k) : Holds job' fs' k := by
  cases k with
  | mapping filename e kvs => exact ⟨hj hk.1,hk.2.1,has_mono h _ _ hk.2.2⟩
  | reducing p m i kva => exact hj hk
  | reduced p m => exact hj hk
  | idle | finishing l | dead => trivial

theorem tracked_set {s : System} (h : Tracked files nReduce s) (w : ℕ) (k : Worker) (job : Job)
    (fs : Files) (hphased : Phased files nReduce job) (hprompt : Prompt job)
    (hj : s.job.handed ⊆ job.handed)
    (hfs : ∀ x, (s.files.intermediate x).isSome → (fs.intermediate x).isSome)
    (hrep : ∀ i, MapReported job i → MapReported s.job i ∨ Has fs i nReduce)
    (hk : Holds job fs k) : Tracked files nReduce ⟨job,fs,s.workers.set w k⟩ where
  phased := hphased
  prompt := hprompt
  workers v hv := by
    rcases List.mem_or_eq_of_mem_set hv with hv | rfl
    · exact holds_mono hj hfs v (h.workers v hv)
    · exact hk
  finished i hi := (hrep i hi).elim (fun hi => has_mono hfs i nReduce (h.finished i hi)) id

theorem begun_holds (app : App) (job : Job) (fs : Files) (found : Option Task)
    (hf : ∀ task ∈ found, task ∈ job.handed) : Holds job fs (begun app found) := by
  cases found with
  | none => trivial
  | some task =>
    have hmem := hf task rfl
    cases task with
    | mapTaskReply filename k t =>
      rw [begun, beginTask]
      cases readInput app.contents filename with
      | error msg => trivial
      | ok content => exact ⟨hmem,Nat.zero_le _,fun p hp => absurd hp (Nat.not_lt_zero p)⟩
    | reduceTaskReply p m => exact hmem
    | terminateTaskReply => trivial

theorem create_keeps (e : Encoder) (fs : Files) (x : ℕ × ℕ) (h : (fs.intermediate x).isSome) :
    ((createNext e fs).2.intermediate x).isSome := by
  by_cases hx : x = (e.taskId, e.mapOutSplit.length)
  · simp [createNext, hx]
  · simp [createNext, Function.update_of_ne hx, h]

theorem encode_keeps (fs : Files) (t p pos : ℕ) (kv : KeyValue) (x : ℕ × ℕ)
    (h : (fs.intermediate x).isSome) : ((encodeAt fs t p pos kv).intermediate x).isSome := by
  by_cases hx : x = (t, p)
  · simp [encodeAt, hx, hx ▸ h]
  · simp [encodeAt, Function.update_of_ne hx, h]

theorem tracked_report {s : System} (h : Tracked files nReduce s) (w : ℕ) (task : Task)
    (job : Job) (l : Lock) (hmem : task ∈ s.job.handed) (hprompt : Prompt job)
    (hjob : MrCoordinator.step s.job (.finishTask task) = some job)
    (hrep : ∀ f k i, task = .mapTaskReply f k i → Has s.files i nReduce) :
    Tracked files nReduce ⟨job,s.files,s.workers.set w (.finishing l)⟩ := by
  have hphased := phased_step files nReduce s.job (.finishTask task) job h.phased hmem hjob
  cases MrCoordinator.step_outcome s.job job _ hjob with
  | finishTask _ hfree =>
    refine tracked_set h w (.finishing l) _ _ hphased hprompt (List.Subset.refl _)
      (fun _ hx => hx) (fun i hi => ?_) trivial
    rcases (map_reported_report s.job task i).mp hi with hi | ⟨f,k,heq⟩
    · exact Or.inl hi
    · exact Or.inr (hrep f k i heq.symm)

theorem tracked_step (app : App) (s : System) (e : Event) (s' : System)
    (h : Tracked files nReduce s) (ha : ReportsApart s e) (hs : step app s e = some s') :
    Tracked files nReduce s' := by
  have hprompt := job_prompt app s s' e h.prompt ha hs
  cases step_outcome app s s' e hs with
  | coordinator _ e' job workers hc _ hj hhanded hreported hworkers =>
    refine ⟨phased_step files nReduce s.job e' job h.phased hc hj,hprompt,fun k hk => ?_,
      fun i hi => ?_⟩
    · rcases hworkers k hk with hk | rfl
      · exact holds_mono (by rw [hhanded]; exact List.Subset.refl _) (fun _ hx => hx) k
          (h.workers k hk)
      · trivial
    · rw [MapReported, hreported] at hi
      exact h.finished i hi
  | act w a k _ hk hact =>
    have hholds := h.workers k (List.mem_of_getElem? hk)
    have hstay : ∀ k', Holds s.job s.files k' →
        Tracked files nReduce ⟨s.job,s.files,s.workers.set w k'⟩ :=
      fun k' hk' => tracked_set h w k' _ _ h.phased h.prompt (List.Subset.refl _)
        (fun _ hx => hx) (fun _ hi => Or.inl hi) hk'
    cases hact with
    | getTask job found hg =>
      have hphased := phased_step files nReduce s.job .getTask job h.phased trivial
        (congrArg (Option.map Prod.fst) hg)
      obtain ⟨c,hf,rfl⟩ := MrCoordinator.get_task_outcome s.job job found hg
      refine tracked_set h w _ _ _ hphased hprompt (hand_out_grows s.job c found) (fun _ hx => hx)
        (fun i hi => Or.inl ?_) (begun_holds app _ _ found (fun task ht => ?_))
      · have hreported : (handOut s.job c found).reported = s.job.reported := by
          cases hf <;> rfl
        rwa [MapReported, hreported] at hi
      · rw [hand_out_handed]
        exact List.mem_append_right _ (Option.mem_toList.mpr ht)
    | create filename e kvs hlt =>
      refine tracked_set h w _ _ _ h.phased h.prompt (List.Subset.refl _)
        (create_keeps e s.files) (fun _ hi => Or.inl hi) ⟨hholds.1,?_,fun p hp => ?_⟩
      · simpa [createNext] using Nat.succ_le_of_lt hlt
      · by_cases hlast : p = e.mapOutSplit.length
        · subst hlast
          simp [createNext]
        · refine create_keeps e s.files _ (hholds.2.2 p ?_)
          simp only [createNext, List.length_append, List.length_singleton] at hp
          omega
    | encode filename e e' kv kvs fs hopen hone =>
      obtain ⟨pos,-,rfl,rfl⟩ := encode_one_outcome e e' s.files fs kv hone
      refine tracked_set h w _ _ _ h.phased h.prompt (List.Subset.refl _)
        (encode_keeps s.files _ _ pos kv) (fun _ hi => Or.inl hi) ⟨hholds.1,?_,?_⟩
      · simpa using hholds.2.1
      · simpa using has_mono (encode_keeps s.files _ _ pos kv) _ _ hholds.2.2
    | finishMap filename e job hopen hjob =>
      refine tracked_report h w _ job _ hholds.1 hprompt hjob (fun f k i heq => ?_)
      obtain ⟨-,-,rfl⟩ := Task.mapTaskReply.inj heq
      have hn : e.nReduce = nReduce := (h.phased.handed _ hholds.1).2
      rw [← hn, ← hopen]
      exact hholds.2.2
    | read p m i kva cells hlt hfile => exact hstay (.reducing p m _ _) hholds
    | rename p m i kva hge =>
      exact tracked_set h w (.reduced p m) _ _ h.phased h.prompt (List.Subset.refl _)
        (fun _ hx => hx) (fun _ hi => Or.inl hi) hholds
    | finishReduce p m job hjob =>
      exact tracked_report h w _ job _ hholds hprompt hjob (fun f k i heq => by cases heq)
    | stop => exact hstay .dead trivial

theorem tracked_start (hpos : 1 ≤ files.length + nReduce) (fs : Files) (n : ℕ) :
    Tracked files nReduce (start files nReduce fs n) where
  phased := phased_start files nReduce
  prompt := prompt_start files nReduce hpos
  workers k hk := by
    obtain rfl := List.eq_of_mem_replicate hk
    trivial
  finished i hi := by simp [MapReported, start, MrCoordinator.start] at hi

end Tracked

/-- An event of one worker that goes on, or of the coordinator. -/
def ByWorker (w : ℕ) : Event → Prop
  | .act v a => v = w ∧ a ≠ .die
  | .evaluate _ | .store _ | .resetMap _ | .resetReduce _ => True

def Goes (w : ℕ) (s : System) (e : Event) : Prop := ByWorker w e ∧ ReportsApart s e

section Recovery
variable (app : App) {files : List String} {nReduce w : ℕ} {s : System}

theorem act_step {k : Worker} {a : Action} {s' : System} (hk : s.workers[w]? = some k)
    (h : act app s w a k = some s') : step app s (.act w a) = some s' := by
  rw [step, hk, Option.bind_some, h]

theorem worker_set {k : Worker} (hk : s.workers[w]? = some k) (k' : Worker) :
    (s.workers.set w k')[w]? = some k' :=
  List.getElem?_set_self (List.getElem?_eq_some_iff.mp hk).1

theorem create_leads (filename : String) (kvs : List KeyValue) (d : ℕ) (e : Encoder)
    (hk : s.workers[w]? = some (.mapping filename e kvs))
    (hd : e.nReduce = e.mapOutSplit.length + d) :
    ∃ s' e', Leads (step app) (Goes w) s s' ∧ s'.job = s.job ∧
      s'.workers[w]? = some (.mapping filename e' kvs) ∧ e'.taskId = e.taskId ∧
      e'.nReduce = e.nReduce ∧ e'.mapOutSplit.length = e'.nReduce := by
  induction d generalizing s e with
  | zero => exact ⟨s,e,leads_refl s,rfl,hk,rfl,rfl,hd.symm⟩
  | succ d ih =>
    have hlt : e.mapOutSplit.length < e.nReduce := by omega
    have hact : act app s w .create (.mapping filename e kvs) = some { s with
        files := (createNext e s.files).2
        workers := s.workers.set w (.mapping filename (createNext e s.files).1 kvs) } :=
      if_pos hlt
    obtain ⟨s',e',hl,hj,hk',ht,hn,ho⟩ := ih (createNext e s.files).1
      (s := { s with files := _, workers := _ }) (worker_set hk _)
      (by simp only [createNext, List.length_append, List.length_singleton]; omega)
    exact ⟨s',e',leads_cons (.act w .create) ⟨⟨rfl,by simp⟩,trivial⟩ (act_step app hk hact) hl,
      hj,hk',ht,hn,ho⟩

theorem encode_leads (filename : String) (kvs : List KeyValue) (e : Encoder)
    (hk : s.workers[w]? = some (.mapping filename e kvs)) (hn : 1 ≤ e.nReduce)
    (ho : e.mapOutSplit.length = e.nReduce) :
    ∃ s' e', Leads (step app) (Goes w) s s' ∧ s'.job = s.job ∧
      s'.workers[w]? = some (.mapping filename e' []) ∧ e'.taskId = e.taskId ∧
      e'.nReduce = e.nReduce ∧ e'.mapOutSplit.length = e'.nReduce := by
  induction kvs generalizing s e with
  | nil => exact ⟨s,e,leads_refl s,rfl,hk,rfl,rfl,ho⟩
  | cons kv kvs ih =>
    obtain ⟨⟨e1,fs⟩,hone⟩ := encode_one_total e s.files kv hn ho
    have hact : act app s w .encode (.mapping filename e (kv::kvs)) = some { s with
        files := fs, workers := s.workers.set w (.mapping filename e1 kvs) } := by
      rw [act, if_pos ho, hone]
    obtain ⟨pos,-,he1,-⟩ := encode_one_outcome e e1 s.files fs kv hone
    obtain ⟨s',e',hl,hj,hk',ht,hn',ho'⟩ := ih e1
      (s := { s with files := fs, workers := _ }) (worker_set hk _) (by rw [he1]; exact hn)
      (by rw [he1]; simpa using ho)
    rw [he1] at ht hn'
    exact ⟨s',e',leads_cons (.act w .encode) ⟨⟨rfl,by simp⟩,trivial⟩ (act_step app hk hact) hl,
      hj,hk',ht,hn',ho'⟩

theorem store_idle (l : Lock) (hk : s.workers[w]? = some .idle) :
    (s.workers.map (replied l))[w]? = some .idle := by
  rw [List.getElem?_map, hk]
  rfl

/-- A report that no other one overlaps. -/
theorem report_leads (task : Task) (l : Lock) (k : Worker) (hl : lockOf task = some l)
    (hs : Settled s.job) (hk : s.workers[w]? = some k)
    (hact : act app s w .finishTask k = (MrCoordinator.step s.job (.finishTask task)).map
      (fun job => { s with job := job, workers := s.workers.set w (.finishing l) })) :
    ∃ s', Leads (step app) (Goes w) s s' ∧ s'.workers[w]? = some .idle ∧
      s'.job = wholeReport s.job task l := by
  have hfree : MrCoordinator.step s.job (.finishTask task) = some (report s.job task) :=
    if_pos (fun k _ => hs k)
  rw [hfree, Option.map_some] at hact
  have hgoes : Goes w s (.act w .finishTask) := by
    refine ⟨⟨rfl,by simp⟩,fun v hv t ht => ?_⟩
    exact settled_apart s.job t hs
  have heval := step_evaluate (report s.job task) l (by simp [report, hl])
  have hstore := step_store (evaluate (report s.job task) l) l _
    (by rw [evaluate_locks, if_pos rfl])
  refine ⟨_,leads_cons (.act w .finishTask) hgoes (act_step app hk hact)
    (leads_cons (.evaluate l) ⟨trivial,trivial⟩ (congrArg (Option.map _) heval)
      (leads_one (.store l) ⟨trivial,trivial⟩ (congrArg (Option.map _) hstore))),?_,rfl⟩
  rw [List.getElem?_map, worker_set hk]
  simp [replied]

/-- The report that holds a mutex ends. -/
theorem flush_leads (l : Lock) (hk : s.workers[w]? = some .idle) :
    ∃ s', Leads (step app) (Goes w) s s' ∧ s'.workers[w]? = some .idle ∧
      s'.job.locks l = .free ∧ ∀ k, k ≠ l → s'.job.locks k = s.job.locks k := by
  have hstored : ∀ (s : System) done, s.workers[w]? = some .idle →
      s.job.locks l = .evaluated done → ∃ s', Leads (step app) (Goes w) s s' ∧
        s'.workers[w]? = some .idle ∧ s'.job.locks l = .free ∧
        ∀ k, k ≠ l → s'.job.locks k = s.job.locks k := by
    intro s done hk hl
    have hstep := step_store s.job l done hl
    refine ⟨_,leads_one (.store l) ⟨trivial,trivial⟩ (congrArg (Option.map _) hstep),
      store_idle l hk,?_,fun k hne => ?_⟩
    · exact (store_locks s.job l l done).trans (if_pos rfl)
    · exact (store_locks s.job l k done).trans (if_neg hne)
  cases hl : s.job.locks l with
  | free => exact ⟨s,leads_refl s,hk,hl,fun _ _ => rfl⟩
  | evaluated done => exact hstored s done hk hl
  | inserted =>
    have hstep := step_evaluate s.job l hl
    obtain ⟨s',hlead,hk',hfree,hkeep⟩ := hstored { s with job := evaluate s.job l }
      (allFinished s.job.c) hk ((evaluate_locks s.job l l).trans (if_pos rfl))
    refine ⟨s',leads_cons (.evaluate l) ⟨trivial,trivial⟩ (congrArg (Option.map _) hstep) hlead,
      hk',hfree,fun k hne => ?_⟩
    rw [hkeep k hne]
    exact (evaluate_locks s.job l k).trans (if_neg hne)

/-- A worker completes its map task. -/
theorem map_leads (hn : 1 ≤ nReduce) (filename : String) (t : ℕ) (kvs : List KeyValue)
    (hk : s.workers[w]? = some (.mapping filename ⟨t,nReduce,[]⟩ kvs)) (hs : Settled s.job) :
    ∃ s', Leads (step app) (Goes w) s s' ∧ s'.workers[w]? = some .idle ∧
      s'.job = wholeReport s.job (.mapTaskReply filename nReduce t) .mapLock := by
  obtain ⟨s1,e1,hl1,hj1,hk1,ht1,hn1,ho1⟩ := create_leads app filename kvs nReduce _ hk
    (by simp)
  obtain ⟨s2,e2,hl2,hj2,hk2,ht2,hn2,ho2⟩ := encode_leads app filename kvs e1 hk1
    (hn1 ▸ hn) ho1
  obtain ⟨s3,hl3,hk3,hj3⟩ := report_leads app (.mapTaskReply filename e2.nReduce e2.taskId)
    .mapLock _ rfl (by rwa [hj2, hj1]) hk2 (if_pos ho2)
  refine ⟨s3,leads_trans hl1 (leads_trans hl2 hl3),hk3,?_⟩
  rw [hj3, hj2, hj1, hn2, hn1, ht2, ht1]

theorem read_leads (p m d i : ℕ) (kva : List KeyValue)
    (hk : s.workers[w]? = some (.reducing p m i kva)) (hd : m = i + d)
    (hfiles : ∀ j < m, (s.files.intermediate (j, p)).isSome) :
    ∃ s' kva', Leads (step app) (Goes w) s s' ∧ s'.job = s.job ∧
      s'.workers[w]? = some (.reducing p m m kva') := by
  induction d generalizing s i kva with
  | zero =>
    obtain rfl : m = i := by omega
    exact ⟨s,kva,leads_refl s,rfl,hk⟩
  | succ d ih =>
    have hlt : i < m := by omega
    obtain ⟨cells,hcells⟩ := Option.isSome_iff_exists.mp (hfiles i hlt)
    have hact : act app s w .read (.reducing p m i kva) = some { s with
        workers := s.workers.set w
          (.reducing p m (i + 1) (kva ++ RecordFile.readAll cells)) } := by
      rw [act, if_pos hlt, hcells]
    obtain ⟨s',kva',hl,hj,hk'⟩ := ih (i + 1) _
      (s := { s with workers := _ }) (worker_set hk _) (by omega) hfiles
    exact ⟨s',kva',leads_cons (.act w .read) ⟨⟨rfl,by simp⟩,trivial⟩ (act_step app hk hact) hl,
      hj,hk'⟩

theorem reduce_leads (p m : ℕ) (hk : s.workers[w]? = some (.reducing p m 0 []))
    (hfiles : ∀ j < m, (s.files.intermediate (j, p)).isSome) (hs : Settled s.job) :
    ∃ s', Leads (step app) (Goes w) s s' ∧ s'.workers[w]? = some .idle ∧
      s'.job = wholeReport s.job (.reduceTaskReply p m) .reduceLock := by
  obtain ⟨s1,kva,hl1,hj1,hk1⟩ := read_leads app p m m 0 [] hk (by omega) hfiles
  have hrename : act app s1 w .rename (.reducing p m m kva) = some { s1 with
      files := { s1.files with
        out := Function.update s1.files.out p
          (some (reduceSorted app.reducef (app.sort.run kva))) }
      workers := s1.workers.set w (.reduced p m) } := if_neg (lt_irrefl m)
  obtain ⟨s2,hl2,hk2,hj2⟩ := report_leads app (.reduceTaskReply p m) .reduceLock (.reduced p m)
    (s := { s1 with files := _, workers := _ }) rfl (by rwa [hj1]) (worker_set hk1 _) rfl
  refine ⟨s2,leads_trans hl1 (leads_cons (.act w .rename) ⟨⟨rfl,by simp⟩,trivial⟩
    (act_step app hk1 hrename) hl2),hk2,?_⟩
  rw [hj2, ← hj1]

/-- The job is in a state that it can reach, no report is in progress and the
worker has no task. -/
structure Ready (files : List String) (nReduce w : ℕ) (s : System) : Prop where
  tracked : Tracked files nReduce s
  settled : Settled s.job
  idle : s.workers[w]? = some .idle

theorem ready_leads {s' : System} (h : Tracked files nReduce s)
    (hl : Leads (step app) (Goes w) s s') (hs : Settled s'.job)
    (hk : s'.workers[w]? = some .idle) : Ready files nReduce w s' :=
  ⟨leads_keeps _ (fun s e s' hs hp => tracked_step app s e s' hs hp.2) h hl,hs,hk⟩

/-- The reports in progress end. -/
theorem settles (h : Tracked files nReduce s) (hk : s.workers[w]? = some .idle) :
    ∃ s', Leads (step app) (Goes w) s s' ∧ Ready files nReduce w s' := by
  obtain ⟨s1,hl1,hk1,hfree1,-⟩ := flush_leads app .mapLock hk
  obtain ⟨s2,hl2,hk2,hfree2,hkeep2⟩ := flush_leads app .reduceLock hk1
  have hl := leads_trans hl1 hl2
  refine ⟨s2,hl,ready_leads app h hl ?_ hk2⟩
  rintro (_ | _)
  · rw [hkeep2 .mapLock nofun, hfree1]
  · exact hfree2

theorem get_task_step (h : Ready files nReduce w s) (job : Job) (task : Task)
    (hg : getTask s.job = some (job, some task)) :
    step app s (.act w .getTask) =
      some { s with job := job, workers := s.workers.set w (beginTask app task) } := by
  refine act_step app h.idle ?_
  rw [act, hg]
  rfl

/-- The worker gets the last map task of the queue and completes it. -/
theorem map_round (h : Ready files nReduce w s) (hn : 1 ≤ nReduce)
    (hread : ∀ f ∈ files, ∃ content, readInput app.contents f = .ok content) (rest : List ℕ)
    (t : ℕ) (hlast : s.job.c.mapUnfinished = rest ++ [t])
    (hphase : s.job.c.mapFinished.card < s.job.c.nMap) :
    ∃ s', Leads (step app) (Goes w) s s' ∧ Ready files nReduce w s' ∧
      s'.job.c.mapFinished = insert t s.job.c.mapFinished ∧ s'.job.c.mapUnfinished = rest := by
  have htracks := h.tracked.phased.tracks
  have ht : t < files.length := queued_valid _ _ htracks.maps t (by
    show t ∈ s.job.c.mapUnfinished
    simp [hlast])
  have hfile : s.job.c.files[t]? = some files[t] := by
    rw [htracks.files_eq, List.getElem?_eq_getElem ht]
  have hg := get_task_map s.job rest t _ hphase hlast hfile
  rw [htracks.nReduce_eq] at hg
  obtain ⟨content,hc⟩ := hread _ (List.getElem_mem ht)
  have hstep := get_task_step app h _ _ hg
  simp only [beginTask, hc] at hstep
  have hsettled : Settled (handOut s.job { s.job.c with mapUnfinished := rest }
      (some (.mapTaskReply files[t] nReduce t))) := h.settled
  obtain ⟨s',hl,hk,hj⟩ := map_leads app hn files[t] t _
    (s := { s with job := _, workers := _ }) (worker_set h.idle _) hsettled
  have hleads := leads_cons (.act w .getTask) ⟨⟨rfl,by simp⟩,trivial⟩ hstep hl
  refine ⟨s',hleads,ready_leads app h.tracked hleads ?_ hk,by rw [hj]; rfl,by rw [hj]; rfl⟩
  rw [hj]
  exact settled_report _ _ _ hsettled rfl

theorem reduce_round (h : Ready files nReduce w s) (rest : List ℕ) (p : ℕ)
    (hlast : s.job.c.reduceUnfinished = rest ++ [p])
    (hmaps : s.job.c.mapFinished.card = files.length)
    (hphase : s.job.c.reduceFinished.card < s.job.c.nReduce) :
    ∃ s', Leads (step app) (Goes w) s s' ∧ Ready files nReduce w s' ∧
      s'.job.c.mapFinished = s.job.c.mapFinished ∧
      s'.job.c.reduceFinished = insert p s.job.c.reduceFinished ∧
      s'.job.c.reduceUnfinished = rest := by
  have htracks := h.tracked.phased.tracks
  have hp : p < nReduce := queued_valid _ _ htracks.reduces p (by
    show p ∈ s.job.c.reduceUnfinished
    simp [hlast])
  have hg := get_task_reduce s.job rest p (by rw [htracks.nMap_eq]; omega) hphase hlast
  rw [htracks.files_eq] at hg
  have hstep := get_task_step app h _ _ hg
  have hreported := (maps_full files nReduce s.job h.tracked.phased).2.mp hmaps
  have hsettled : Settled (handOut s.job { s.job.c with reduceUnfinished := rest }
      (some (.reduceTaskReply p files.length))) := h.settled
  obtain ⟨s',hl,hk,hj⟩ := reduce_leads app p files.length
    (s := { s with job := _, workers := _ }) (worker_set h.idle _)
    (fun j hlt => h.tracked.finished j (hreported j hlt) p hp) hsettled
  have hleads := leads_cons (.act w .getTask) ⟨⟨rfl,by simp⟩,trivial⟩ hstep hl
  refine ⟨s',hleads,ready_leads app h.tracked hleads ?_ hk,by rw [hj]; rfl,by rw [hj]; rfl,
    by rw [hj]; rfl⟩
  rw [hj]
  exact settled_report _ _ _ hsettled rfl

theorem reset_task_alone (t : ℕ) (tasks : List ℕ) (finished : Finset ℕ) (hnil : tasks = [])
    (hnot : t ∉ finished) : MrCoordinator.resetTask t tasks finished = [t] := by
  rw [MrCoordinator.resetTask, if_neg hnot, hnil, List.nil_append]

theorem maps_completed (h : Ready files nReduce w s) (hn : 1 ≤ nReduce)
    (hread : ∀ f ∈ files, ∃ content, readInput app.contents f = .ok content) :
    ∃ s', Leads (step app) (Goes w) s s' ∧ Ready files nReduce w s' ∧
      s'.job.c.mapFinished.card = files.length := by
  obtain ⟨s',hl,hr,hcard⟩ := pool_completes (step app) (Goes w)
    files.length (Ready files nReduce w) (fun s => mapPool s.job)
    (fun s h => h.tracked.phased.tracks.maps)
    (fun s rest t h hlast hlt => by
      obtain ⟨s',hl,hr,hf,hq⟩ := map_round app h hn hread rest t hlast
        (h.tracked.phased.tracks.nMap_eq ▸ hlt)
      exact ⟨s',hl,hr,hq,hf⟩)
    (fun s t h hnil ht hnot => by
      have hstep : step app s (.resetMap t) = some { s with job := { s.job with
          c := MrCoordinator.resetMap s.job.c t, mapTimers := s.job.mapTimers.erase t } } :=
        congrArg (Option.map _) (if_pos ht)
      have hl := leads_one (P := Goes w) (.resetMap t) ⟨trivial,trivial⟩ hstep
      exact ⟨_,hl,ready_leads app h.tracked hl h.settled h.idle,reset_task_alone t _ _ hnil hnot,
        rfl⟩)
    s h
  exact ⟨s',hl,hr,le_antisymm (maps_full files nReduce s'.job hr.tracked.phased).1 hcard⟩

theorem reduces_completed (h : Ready files nReduce w s)
    (hmaps : s.job.c.mapFinished.card = files.length) :
    ∃ s', Leads (step app) (Goes w) s s' ∧
      (Ready files nReduce w s' ∧ s'.job.c.mapFinished.card = files.length) ∧
      s'.job.c.reduceFinished.card = nReduce := by
  obtain ⟨s',hl,hr,hcard⟩ := pool_completes (step app) (Goes w)
    nReduce (fun s => Ready files nReduce w s ∧ s.job.c.mapFinished.card = files.length)
    (fun s => reducePool s.job) (fun s h => h.1.tracked.phased.tracks.reduces)
    (fun s rest p h hlast hlt => by
      obtain ⟨s',hl,hr,hm,hf,hq⟩ := reduce_round app h.1 rest p hlast h.2
        (h.1.tracked.phased.tracks.nReduce_eq ▸ hlt)
      exact ⟨s',hl,⟨hr,hm ▸ h.2⟩,hq,hf⟩)
    (fun s p h hnil hp hnot => by
      have hstep : step app s (.resetReduce p) = some { s with job := { s.job with
          c := MrCoordinator.resetReduce s.job.c p
          reduceTimers := s.job.reduceTimers.erase p } } :=
        congrArg (Option.map _) (if_pos hp)
      have hl := leads_one (P := Goes w) (.resetReduce p) ⟨trivial,trivial⟩ hstep
      exact ⟨_,hl,⟨ready_leads app h.1.tracked hl h.1.settled h.1.idle,h.2⟩,
        reset_task_alone p _ _ hnil hnot,rfl⟩)
    s ⟨h,hmaps⟩
  exact ⟨s',hl,hr,le_antisymm (reduces_full files nReduce s'.job hr.1.tracked.phased).1 hcard⟩

end Recovery

/-- From every state that a job reaches in which the report of the last task did
not overtake another one, a worker without a task can complete the job if the
input files can be read: the coordinator is done after some calls and steps of
this worker and some of the coordinator, whatever the others did. -/
theorem job_completes (app : App) (files : List String) (nReduce : ℕ) (hn : 1 ≤ nReduce)
    (hread : ∀ f ∈ files, ∃ content, readInput app.contents f = .ok content) (fs : Files) (n : ℕ)
    (es : List Event) (s : System)
    (hm : Meets (step app) ReportsApart (start files nReduce fs n) es)
    (h : exec (step app) (start files nReduce fs n) es = some s) (w : ℕ)
    (hw : s.workers[w]? = some .idle) :
    ∃ es' s', (∀ e ∈ es', ByWorker w e) ∧ exec (step app) s es' = some s' ∧
      s'.job.c.done = true := by
  have hs := exec_invariant (step app) ReportsApart (Tracked files nReduce) (tracked_step app) es
    _ s (tracked_start (by omega) fs n) hm h
  obtain ⟨s1,hl1,hr1⟩ := settles app hs hw
  obtain ⟨s2,hl2,hr2,hm2⟩ := maps_completed app hr1 hn hread
  obtain ⟨s3,hl3,⟨hr3,hm3⟩,hp3⟩ := reduces_completed app hr2 hm2
  obtain ⟨es',hmeets,he⟩ := leads_mono (fun _ _ hg => hg.1) (leads_trans hl1 (leads_trans hl2 hl3))
  refine ⟨es',s3,allowed_mem es' s hmeets he,he,?_⟩
  have hphased := hr3.tracked.phased
  apply prompt_done s3.job hr3.tracked.prompt hr3.settled
  exact (all_finished_iff files nReduce s3.job hphased).mpr
    ⟨(maps_full files nReduce s3.job hphased).2.mp hm3,
      (reduces_full files nReduce s3.job hphased).2.mp hp3⟩

/-- One worker died with a map task, another one while its report of the task was
in progress and a third one with a reduce task. -/
theorem job_completes_survivor :
    let es : List Event := [.act 0 .getTask,.act 0 .create,.act 0 .die,.resetMap 0,.act 1 .getTask,
      .act 1 .create,.act 1 .encode,.act 1 .finishTask,.act 1 .die,.act 2 .getTask,.act 2 .die]
    Meets (step onePair) ReportsApart (start ["pg-tale.txt"] 1 noFiles 4) es ∧
      ∃ s, exec (step onePair) (start ["pg-tale.txt"] 1 noFiles 4) es = some s ∧
        s.workers = [.dead,.dead,.dead,.idle] ∧
        ∃ es' s', (∀ e ∈ es', ByWorker 3 e) ∧ exec (step onePair) s es' = some s' ∧
          s'.job.c.done = true := by
  intro es
  have hm : Meets (step onePair) ReportsApart (start ["pg-tale.txt"] 1 noFiles 4) es := by
    decide +kernel
  have hsome : (exec (step onePair) (start ["pg-tale.txt"] 1 noFiles 4) es).isSome := by
    decide +kernel
  have hworkers : ∀ s ∈ exec (step onePair) (start ["pg-tale.txt"] 1 noFiles 4) es,
      s.workers = [.dead,.dead,.dead,.idle] := by
    decide +kernel
  obtain ⟨s,hs⟩ := Option.isSome_iff_exists.mp hsome
  have hw := hworkers s hs
  exact ⟨hm,s,hs,hw,job_completes onePair ["pg-tale.txt"] 1 (by decide) (fun f _ => ⟨_,rfl⟩)
    noFiles 4 es s hm hs 3 (by rw [hw]; rfl)⟩

end Mitdist.MrProgress
