import Mathlib.Tactic.Common
import Mitdist.TaskPool
import Mitdist.TransitionSystem

/-!
# The MapReduce coordinator

The coordinator hands out map tasks, then reduce tasks, then the order to
terminate. Every task that it hands out starts a timer of ten seconds that puts
the task back unless it was reported finished by then, so a slow worker may go
on with a task that another worker was given as well. A call of GetTask that
finds no task sleeps and tries again, and each of its attempts is one step, as
is each timer.

A report holds the mutex of its kind of task while it inserts the task into its
set, evaluates whether all tasks are finished and stores the answer. Each of
these is one step, since a report of the other kind holds another mutex and
writes the same flag. The two sets are read one after the other, and since they
only grow the answer is that of a single moment. Timers and attempts to find a
task take the same mutexes, but they read and write nothing that the rest of a
report writes or reads. They commute with it, and the model does not make them
wait.
-/

set_option autoImplicit false

namespace Mitdist.MrCoordinator
open Mitdist.TaskPool Mitdist.TransitionSystem

inductive Task
  | mapTaskReply (filename : String) (nReduce taskId : ℕ)
  | reduceTaskReply (partition nMappers : ℕ)
  | terminateTaskReply
  deriving DecidableEq, Repr

structure Coordinator where
  files : List String
  nMap : ℕ
  nReduce : ℕ
  done : Bool
  mapUnfinished : List ℕ
  mapFinished : Finset ℕ
  reduceUnfinished : List ℕ
  reduceFinished : Finset ℕ

def makeRange (min max : ℕ) : List ℕ := (List.range (max - min)).map (fun i => min + i)

def makeCoordinator (files : List String) (nReduce : ℕ) : Coordinator where
  files := files
  nMap := files.length
  nReduce := nReduce
  done := false
  mapUnfinished := makeRange 0 files.length
  mapFinished := ∅
  reduceUnfinished := makeRange 0 nReduce
  reduceFinished := ∅

def popLast (s : List ℕ) : List ℕ × Option ℕ :=
  match s.getLast? with
  | some r => (s.dropLast, some r)
  | none => (s, none)

def unassignedMap (c : Coordinator) : Coordinator × Option ℕ :=
  ({ c with mapUnfinished := (popLast c.mapUnfinished).1 }, (popLast c.mapUnfinished).2)

def unassignedReduce (c : Coordinator) : Coordinator × Option ℕ :=
  ({ c with reduceUnfinished := (popLast c.reduceUnfinished).1 }, (popLast c.reduceUnfinished).2)

/-- One attempt to find a task. There is no result if the coordinator would
index `files` out of range. -/
def findTask (c : Coordinator) : Option (Coordinator × Option Task) :=
  if c.mapFinished.card < c.nMap then
    match (unassignedMap c).2 with
    | some taskId => (c.files[taskId]?).map (fun filename =>
        ((unassignedMap c).1, some (.mapTaskReply filename c.nReduce taskId)))
    | none => some ((unassignedMap c).1, none)
  else if c.reduceFinished.card < c.nReduce then
    match (unassignedReduce c).2 with
    | some partition => some ((unassignedReduce c).1,
        some (.reduceTaskReply partition c.files.length))
    | none => some ((unassignedReduce c).1, none)
  else some (c, some .terminateTaskReply)

def resetTask (taskId : ℕ) (tasks : List ℕ) (finished : Finset ℕ) : List ℕ :=
  if taskId ∈ finished then tasks else tasks ++ [taskId]

def resetMap (c : Coordinator) (taskId : ℕ) : Coordinator :=
  { c with mapUnfinished := resetTask taskId c.mapUnfinished c.mapFinished }

def resetReduce (c : Coordinator) (partition : ℕ) : Coordinator :=
  { c with reduceUnfinished := resetTask partition c.reduceUnfinished c.reduceFinished }

/-- The right-hand side of the last line of completeTask. -/
def allFinished (c : Coordinator) : Bool :=
  c.mapFinished.card == c.files.length && c.reduceFinished.card == c.nReduce

/-- A report of a map task up to the last line of completeTask. -/
def completeMap (c : Coordinator) (taskId : ℕ) : Coordinator :=
  { c with mapFinished := insert taskId c.mapFinished }

def completeReduce (c : Coordinator) (partition : ℕ) : Coordinator :=
  { c with reduceFinished := insert partition c.reduceFinished }

def finishTask (c : Coordinator) : Task → Coordinator
  | .mapTaskReply _ _ taskId => completeMap c taskId
  | .reduceTaskReply partition _ => completeReduce c partition
  | .terminateTaskReply => c

inductive Lock
  | mapLock
  | reduceLock
  deriving DecidableEq

def other : Lock → Lock
  | .mapLock => .reduceLock
  | .reduceLock => .mapLock

def lockOf : Task → Option Lock
  | .mapTaskReply _ _ _ => some .mapLock
  | .reduceTaskReply _ _ => some .reduceLock
  | .terminateTaskReply => none

/-- How far the call of completeTask is that holds a mutex. -/
inductive Completion
  | free
  | inserted
  | evaluated (done : Bool)
  deriving DecidableEq

/-- The coordinator with its pending timers, the calls of completeTask that hold
the mutexes, the tasks that were handed out and the reports that arrived. -/
structure Job where
  c : Coordinator
  mapTimers : List ℕ
  reduceTimers : List ℕ
  locks : Lock → Completion
  handed : List Task
  reported : List Task

def start (files : List String) (nReduce : ℕ) : Job :=
  ⟨makeCoordinator files nReduce,[],[],fun _ => .free,[],[]⟩

inductive Event
  | getTask
  | finishTask (task : Task)
  | evaluate (l : Lock)
  | store (l : Lock)
  | resetMap (taskId : ℕ)
  | resetReduce (partition : ℕ)

def startTimer (x : Job) : Task → Job
  | .mapTaskReply _ _ taskId => { x with mapTimers := x.mapTimers ++ [taskId] }
  | .reduceTaskReply partition _ => { x with reduceTimers := x.reduceTimers ++ [partition] }
  | .terminateTaskReply => x

def handOut (x : Job) (c : Coordinator) : Option Task → Job
  | none => { x with c := c }
  | some task => startTimer { x with c := c, handed := x.handed ++ [task] } task

def getTask (x : Job) : Option (Job × Option Task) :=
  (findTask x.c).map (fun r => (handOut x r.1 r.2, r.2))

def report (x : Job) (task : Task) : Job :=
  { x with
    c := finishTask x.c task
    locks := fun l => if lockOf task = some l then .inserted else x.locks l
    reported := x.reported ++ [task] }

def evaluate (x : Job) (l : Lock) : Job :=
  { x with locks := Function.update x.locks l (.evaluated (allFinished x.c)) }

def store (x : Job) (l : Lock) (done : Bool) : Job :=
  { x with c := { x.c with done := done }, locks := Function.update x.locks l .free }

def step (x : Job) : Event → Option Job
  | .getTask => (getTask x).map Prod.fst
  | .finishTask task =>
    if ∀ l ∈ lockOf task, x.locks l = .free then some (report x task) else none
  | .evaluate l => if x.locks l = .inserted then some (evaluate x l) else none
  | .store l =>
    match x.locks l with
    | .evaluated done => some (store x l done)
    | .free | .inserted => none
  | .resetMap taskId =>
    if taskId ∈ x.mapTimers then
      some { x with c := resetMap x.c taskId, mapTimers := x.mapTimers.erase taskId }
    else none
  | .resetReduce partition =>
    if partition ∈ x.reduceTimers then
      some { x with
        c := resetReduce x.c partition, reduceTimers := x.reduceTimers.erase partition }
    else none

theorem evaluate_locks (x : Job) (l k : Lock) :
    (evaluate x l).locks k = if k = l then .evaluated (allFinished x.c) else x.locks k :=
  Function.update_apply x.locks l _ k

theorem store_locks (x : Job) (l k : Lock) (done : Bool) :
    (store x l done).locks k = if k = l then .free else x.locks k :=
  Function.update_apply x.locks l _ k

theorem step_evaluate (x : Job) (l : Lock) (h : x.locks l = .inserted) :
    step x (.evaluate l) = some (evaluate x l) := if_pos h

theorem step_store (x : Job) (l : Lock) (done : Bool) (h : x.locks l = .evaluated done) :
    step x (.store l) = some (store x l done) := by
  rw [step, h]

theorem pop_last_some (s rest : List ℕ) (t : ℕ) (h : s = rest ++ [t]) :
    popLast s = (rest, some t) := by
  subst h
  simp [popLast]

theorem pop_last_cases (s : List ℕ) :
    (s = [] ∧ popLast s = (s, none)) ∨ ∃ rest t, s = rest ++ [t] ∧ popLast s = (rest, some t) := by
  rcases List.eq_nil_or_concat s with rfl | ⟨rest,t,rfl⟩
  · exact .inl ⟨rfl,rfl⟩
  · exact .inr ⟨rest,t,by simp,pop_last_some _ rest t (by simp)⟩

/-- What one attempt can do. -/
inductive Finds (c : Coordinator) : Coordinator → Option Task → Prop
  | nothing : Finds c c none
  | mapTask (rest : List ℕ) (taskId : ℕ) (filename : String)
      (hphase : c.mapFinished.card < c.nMap) (hlast : c.mapUnfinished = rest ++ [taskId])
      (hfile : c.files[taskId]? = some filename) :
      Finds c { c with mapUnfinished := rest } (some (.mapTaskReply filename c.nReduce taskId))
  | reduceTask (rest : List ℕ) (partition : ℕ) (hmaps : ¬ c.mapFinished.card < c.nMap)
      (hphase : c.reduceFinished.card < c.nReduce)
      (hlast : c.reduceUnfinished = rest ++ [partition]) :
      Finds c { c with reduceUnfinished := rest }
        (some (.reduceTaskReply partition c.files.length))
  | terminate (hmaps : ¬ c.mapFinished.card < c.nMap)
      (hreduces : ¬ c.reduceFinished.card < c.nReduce) : Finds c c (some .terminateTaskReply)

theorem find_task_outcome (c c' : Coordinator) (found : Option Task)
    (h : findTask c = some (c', found)) : Finds c c' found := by
  rw [findTask] at h
  split_ifs at h with hmaps hreduces
  · rcases pop_last_cases c.mapUnfinished with ⟨hnil,hp⟩ | ⟨rest,t,hlast,hp⟩
    · simp only [unassignedMap, hp, Option.some.injEq, Prod.mk.injEq] at h
      rw [← h.1, ← h.2]
      exact .nothing
    · simp only [unassignedMap, hp, Option.map_eq_some_iff, Prod.mk.injEq] at h
      obtain ⟨f,hf,hc,hr⟩ := h
      rw [← hc, ← hr]
      exact .mapTask rest t f hmaps hlast hf
  · rcases pop_last_cases c.reduceUnfinished with ⟨hnil,hp⟩ | ⟨rest,t,hlast,hp⟩
    · simp only [unassignedReduce, hp, Option.some.injEq, Prod.mk.injEq] at h
      rw [← h.1, ← h.2]
      exact .nothing
    · simp only [unassignedReduce, hp, Option.some.injEq, Prod.mk.injEq] at h
      rw [← h.1, ← h.2]
      exact .reduceTask rest t hmaps hreduces hlast
  · simp only [Option.some.injEq, Prod.mk.injEq] at h
    rw [← h.1, ← h.2]
    exact .terminate hmaps hreduces

theorem get_task_outcome (x y : Job) (found : Option Task) (h : getTask x = some (y, found)) :
    ∃ c, Finds x.c c found ∧ y = handOut x c found := by
  obtain ⟨⟨c,f⟩,hf,heq⟩ := Option.map_eq_some_iff.mp h
  obtain ⟨rfl,rfl⟩ := Prod.mk.inj heq
  exact ⟨c,find_task_outcome x.c c f hf,rfl⟩

/-- What one step can do. -/
inductive Steps (x : Job) : Event → Job → Prop
  | getTask (c : Coordinator) (found : Option Task) (h : Finds x.c c found) :
      Steps x .getTask (handOut x c found)
  | finishTask (task : Task) (h : ∀ l ∈ lockOf task, x.locks l = .free) :
      Steps x (.finishTask task) (report x task)
  | evaluate (l : Lock) (h : x.locks l = .inserted) : Steps x (.evaluate l) (evaluate x l)
  | store (l : Lock) (done : Bool) (h : x.locks l = .evaluated done) :
      Steps x (.store l) (store x l done)
  | resetMap (t : ℕ) (h : t ∈ x.mapTimers) : Steps x (.resetMap t)
      { x with c := MrCoordinator.resetMap x.c t, mapTimers := x.mapTimers.erase t }
  | resetReduce (p : ℕ) (h : p ∈ x.reduceTimers) : Steps x (.resetReduce p)
      { x with c := MrCoordinator.resetReduce x.c p, reduceTimers := x.reduceTimers.erase p }

theorem step_outcome (x y : Job) (e : Event) (h : step x e = some y) : Steps x e y := by
  cases e with
  | getTask =>
    obtain ⟨⟨z,found⟩,hg,rfl⟩ := Option.map_eq_some_iff.mp h
    obtain ⟨c,hf,rfl⟩ := get_task_outcome x z found hg
    exact .getTask c found hf
  | finishTask task =>
    simp only [step] at h
    split_ifs at h with hfree
    obtain rfl := Option.some.inj h
    exact .finishTask task hfree
  | evaluate l =>
    simp only [step] at h
    split_ifs at h with hl
    obtain rfl := Option.some.inj h
    exact .evaluate l hl
  | store l =>
    cases hl : x.locks l with
    | free | inserted => simp [step, hl] at h
    | evaluated done =>
      simp only [step, hl, Option.some.injEq] at h
      subst h
      exact .store l done hl
  | resetMap t =>
    simp only [step] at h
    split_ifs at h with ht
    obtain rfl := Option.some.inj h
    exact .resetMap t ht
  | resetReduce p =>
    simp only [step] at h
    split_ifs at h with hp
    obtain rfl := Option.some.inj h
    exact .resetReduce p hp

def mapPool (x : Job) : Pool := ⟨x.c.mapUnfinished,x.mapTimers,x.c.mapFinished⟩

def reducePool (x : Job) : Pool := ⟨x.c.reduceUnfinished,x.reduceTimers,x.c.reduceFinished⟩

theorem hand_out_moves (x : Job) (c : Coordinator) (found : Option Task) (h : Finds x.c c found) :
    Moves (mapPool x) (mapPool (handOut x c found)) ∧
      Moves (reducePool x) (reducePool (handOut x c found)) := by
  cases h with
  | nothing => exact ⟨.stay,.stay⟩
  | mapTask rest t f _ hlast _ => exact ⟨.hand rest t hlast,.stay⟩
  | reduceTask rest t _ _ hlast => exact ⟨.stay,.hand rest t hlast⟩
  | terminate => exact ⟨.stay,.stay⟩

theorem report_moves (x : Job) (task : Task) :
    Moves (mapPool x) (mapPool (report x task)) ∧
      Moves (reducePool x) (reducePool (report x task)) := by
  cases task with
  | mapTaskReply f n t => exact ⟨.finish t,.stay⟩
  | reduceTaskReply p m => exact ⟨.stay,.finish p⟩
  | terminateTaskReply => exact ⟨.stay,.stay⟩

/-- Every step of a job is a step of each of its two pools. -/
theorem step_moves (x y : Job) (e : Event) (h : Steps x e y) :
    Moves (mapPool x) (mapPool y) ∧ Moves (reducePool x) (reducePool y) := by
  cases h with
  | getTask c found hf => exact hand_out_moves x c found hf
  | finishTask task _ => exact report_moves x task
  | evaluate l _ => exact ⟨.stay,.stay⟩
  | store l done _ => exact ⟨.stay,.stay⟩
  | resetMap t ht => exact ⟨.expire t ht,.stay⟩
  | resetReduce p hp => exact ⟨.stay,.expire p hp⟩

def MapReported (x : Job) (t : ℕ) : Prop :=
  ∃ filename nReduce, Task.mapTaskReply filename nReduce t ∈ x.reported

def ReduceReported (x : Job) (p : ℕ) : Prop :=
  ∃ nMappers, Task.reduceTaskReply p nMappers ∈ x.reported

/-- A step that takes no part in a report. -/
def NoReport : Event → Prop
  | .getTask | .resetMap _ | .resetReduce _ => True
  | .finishTask _ | .evaluate _ | .store _ => False

/-- What a report changes after it inserted its task. -/
def put (x : Job) (done : Bool) (locks : Lock → Completion) : Job :=
  { x with c := { x.c with done := done }, locks := locks }

theorem find_task_done (c : Coordinator) (done : Bool) :
    findTask { c with done := done } =
      (findTask c).map (fun r => ({ r.1 with done := done }, r.2)) := by
  unfold findTask
  split_ifs
  · rcases pop_last_cases c.mapUnfinished with ⟨_,hp⟩ | ⟨rest,t,_,hp⟩
    · simp [unassignedMap, hp]
    · simp [unassignedMap, hp, Function.comp_def]
  · rcases pop_last_cases c.reduceUnfinished with ⟨_,hp⟩ | ⟨rest,t,_,hp⟩ <;>
      simp [unassignedReduce, hp]
  · rfl

theorem no_report_put (x : Job) (done : Bool) (locks : Lock → Completion) (e : Event)
    (he : NoReport e) :
    step (put x done locks) e = (step x e).map (fun y => put y done locks) := by
  cases e with
  | getTask =>
    have hout : ∀ r : Coordinator × Option Task, handOut (put x done locks)
        { r.1 with done := done } r.2 = put (handOut x r.1 r.2) done locks := by
      rintro ⟨c,_ | task⟩
      · rfl
      · cases task <;> rfl
    show ((findTask { x.c with done := done }).map _).map _ = _
    rw [find_task_done]
    simp [step, getTask, Function.comp_def, hout]
  | resetMap t =>
    by_cases ht : t ∈ x.mapTimers
    · simp [step, put, ht, resetMap]
    · simp [step, put, ht]
  | resetReduce p =>
    by_cases hp : p ∈ x.reduceTimers
    · simp [step, put, hp, resetReduce]
    · simp [step, put, hp]
  | finishTask task => exact he.elim
  | evaluate l => exact he.elim
  | store l => exact he.elim

theorem no_report_keeps (x y : Job) (e : Event) (he : NoReport e) (h : Steps x e y) :
    y.c.done = x.c.done ∧ y.locks = x.locks ∧ allFinished y.c = allFinished x.c := by
  cases h with
  | getTask c found hf => cases hf <;> exact ⟨rfl,rfl,rfl⟩
  | resetMap t ht => exact ⟨rfl,rfl,rfl⟩
  | resetReduce p hp => exact ⟨rfl,rfl,rfl⟩
  | finishTask task _ => exact he.elim
  | evaluate l _ => exact he.elim
  | store l done _ => exact he.elim

/-- What the rest of a report does depends on the flag, the mutexes and whether
all tasks are finished. -/
theorem rest_puts (l : Lock) (r : Event) (hr : r = .evaluate l ∨ r = .store l) :
    ∃ f : Bool → (Lock → Completion) → Bool → Option (Bool × (Lock → Completion)),
      ∀ x, step x r = (f x.c.done x.locks (allFinished x.c)).map (fun p => put x p.1 p.2) := by
  rcases hr with rfl | rfl
  · refine ⟨fun done locks all => if locks l = .inserted then
      some (done, Function.update locks l (.evaluated all)) else none,fun x => ?_⟩
    by_cases hl : x.locks l = .inserted
    · simp [step, hl, evaluate, put]
    · simp [step, hl]
  · refine ⟨fun _ locks _ => if let .evaluated done := locks l then
      some (done, Function.update locks l .free) else none,fun x => ?_⟩
    cases hl : x.locks l <;> simp [step, hl, store, put]

/-- An attempt to find a task or a timer may as well come before the rest of a
report as after it, so nothing is gained by waiting for the mutex. -/
theorem rest_commutes (x : Job) (l : Lock) (e r : Event) (he : NoReport e)
    (hr : r = .evaluate l ∨ r = .store l) : exec step x [e,r] = exec step x [r,e] := by
  obtain ⟨f,hf⟩ := rest_puts l r hr
  cases hy : step x e with
  | none =>
    simp only [exec, hy, hf x]
    cases f x.c.done x.locks (allFinished x.c) with
    | none => rfl
    | some p => simp [no_report_put x _ _ e he, hy]
  | some y =>
    obtain ⟨hdone,hlocks,hall⟩ := no_report_keeps x y e he (step_outcome x y e hy)
    simp only [exec, hy, Option.bind_some, hf y, hf x, hdone, hlocks, hall]
    cases f x.c.done x.locks (allFinished x.c) with
    | none => rfl
    | some p => simp [no_report_put x _ _ e he, hy]

end Mitdist.MrCoordinator
