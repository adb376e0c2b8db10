import Mitdist.KvModel
import Mitdist.KvClusterRuns
import Mathlib.Data.Int.ConditionallyCompleteOrder
import Mathlib.Order.ConditionallyCompleteLattice.Basic

/-!
# The log that the tests check

The tests call the clerks, read a clock before each call and after its return,
and log what was called and what came back. When all calls have returned, the
log is checked against the model of the key/value store.
-/

set_option autoImplicit false

namespace Mitdist.RecordedLog
open Mitdist.Linearization Mitdist.KvServer Mitdist.KvReplay Mitdist.KvCluster
open Mitdist.KvClusterRuns Mitdist.TransitionSystem Mitdist.Checker Mitdist.CheckerHistories
open Mitdist.ParallelChecker (Parallel StartsOperations checkParallel result)
open Mitdist.ParallelRuns Mitdist.Locality Mitdist.KvModel
open Mitdist.Sessions (firsts sequentially sequentially_concat)
open Mitdist.KvSnapshots (RoundTrips)
open Mitdist.KvService (Call)
open Mitdist.RaftPeer (Bytes load)
open Mitdist.RaftOutcomes (ok_bind)
open scoped List

/-- What `Get`, `Put` and `Append` of the tests append to the log. -/
def logged (c : Call) (v : String) (start stop cli : ℤ) : KvOperation :=
  match c with
  | .get key => ⟨cli,⟨0,key,""⟩,start,⟨v⟩,stop⟩
  | .put key value => ⟨cli,⟨1,key,value⟩,start,⟨""⟩,stop⟩
  | .append key value => ⟨cli,⟨2,key,value⟩,start,⟨""⟩,stop⟩

/-- The entry of the log for a request of the history: the clock is read before
the call and after the return. -/
inductive Recorded (clock : ℕ → ℤ) (history : List (Act Op String)) : Op → KvOperation → Prop
  | mk {c : Call} {id n : ℤ} {v : String} {start stop : ℤ} (cli : ℤ) {i j : ℕ}
      (hi : history[i]? = some (.invoke (c.operation id n)))
      (hj : history[j]? = some (.respond (c.operation id n) v))
      (hstart : start ≤ clock i) (hstop : clock j ≤ stop) (hle : start ≤ stop) :
      Recorded clock history (c.operation id n) (logged c v start stop cli)

/-- The log has one entry for each call. -/
def Records (clock : ℕ → ℤ) (history : List (Act Op String)) (log : List KvOperation) : Prop :=
  ∃ ops, ops ~ invoked history ∧ List.Forall₂ (Recorded clock history) ops log

def contents (values : Values) (key : String) : String := (values.lookup key).getD ""

theorem contents_insert (values : Values) (key value : String) :
    contents (values.insert key value) = Function.update (contents values) key value := by
  funext k
  by_cases hk : k = key
  · subst hk
    simp [contents]
  · simp [contents, hk]

theorem get_executed (values : Values) (key : String) (id n : ℤ) :
    (machine.execute values ((Call.get key).operation id n)).1 = values ∧
      (machine.execute values ((Call.get key).operation id n)).2.1 = contents values key := by
  have hop : (Call.get key).operation id n = ⟨.get,[key],id,n⟩ := rfl
  have hkey : load [key] 0 = .ok key := rfl
  simp only [hop, machine, execute, hkey, ok_bind, contents]
  cases values.lookup key with
  | none => exact ⟨rfl,rfl⟩
  | some v => exact ⟨rfl,rfl⟩

theorem put_executed (values : Values) (key value : String) (id n : ℤ) :
    (machine.execute values ((Call.put key value).operation id n)).1 =
      values.insert key value := rfl

theorem append_executed (values : Values) (key value : String) (id n : ℤ) :
    (machine.execute values ((Call.append key value).operation id n)).1 =
      values.insert key (contents values key ++ value) := rfl

/-- The model of the store allows what the servers execute. -/
theorem perform_logged (values : Values) (c : Call) (id n start stop cli : ℤ) :
    perform storeStep (contents values)
        (logged c (machine.execute values (c.operation id n)).2.1 start stop cli) =
      some (contents (machine.execute values (c.operation id n)).1) := by
  cases c with
  | get key =>
    obtain ⟨hsame,hvalue⟩ := get_executed values key id n
    rw [hsame, hvalue]
    simp [perform, storeStep, KvModel.step, logged]
  | put key value =>
    rw [put_executed, contents_insert]
    simp [perform, storeStep, KvModel.step, logged]
  | append key value =>
    rw [append_executed, contents_insert]
    simp [perform, storeStep, KvModel.step, logged]

variable {clock : ℕ → ℤ} {history : List (Act Op String)} {log : List KvOperation}

theorem recorded_times {op : Op} {e : KvOperation} (h : Recorded clock history op e) :
    e.call ≤ e.ret ∧ (∃ i, history[i]? = some (.invoke op) ∧ e.call ≤ clock i) ∧
      ∃ (j : ℕ) (v : String), history[j]? = some (.respond op v) ∧ clock j ≤ e.ret := by
  obtain @⟨c,id,n,v,start,stop,cli,i,j,hi,hj,hstart,hstop,hle⟩ := h
  cases c <;> exact ⟨hle,⟨i,hi,hstart⟩,j,v,hj,hstop⟩

theorem records_called (h : Records clock history log) : ∀ e ∈ log, e.call ≤ e.ret := by
  obtain ⟨ops,-,hrec⟩ := h
  intro e he
  obtain ⟨k,hk,rfl⟩ := List.getElem_of_mem he
  exact (recorded_times (hrec.get (hrec.length_eq ▸ hk) hk)).1

/-- The entries, in the order in which their requests take effect, are what the
store does one after the other. -/
theorem recorded_fold {os : List Op} (hl : Linearizes machine Prod.fst ∅ history os)
    {done rest : List Op} {log : List KvOperation} (hos : os = done ++ rest)
    (h : List.Forall₂ (Recorded clock history) rest log) :
    (log.foldlM (perform storeStep) (contents (sequentially machine ∅ done))).isSome := by
  induction h generalizing done with
  | nil => rfl
  | @cons op e rest log hop hrest ih =>
    obtain @⟨c,id,n,v,start,stop,cli,i,j,hi,hj,hstart,hstop,hle⟩ := hop
    obtain ⟨k,hk,hv⟩ := hl.answered _ v (List.mem_of_getElem? hj)
    have hdone : os[done.length]? = some (c.operation id n) := by simp [hos]
    obtain rfl : k = done.length :=
      (List.getElem?_inj (List.getElem?_eq_some_iff.mp hk).1 hl.nodup).mp (hk.trans hdone.symm)
    rw [hos, List.take_left' rfl] at hv
    rw [List.foldlM_cons, hv, perform_logged, ← sequentially_concat]
    exact ih (by simp [hos])

theorem recorded_timely (hclock : Monotone clock) {os : List Op}
    (hl : Linearizes machine Prod.fst ∅ history os) {log : List KvOperation}
    (h : List.Forall₂ (Recorded clock history) os log) :
    Timely Operation.call Operation.ret log := by
  refine List.pairwise_iff_getElem.mpr fun k l hk hl' hkl hlt => ?_
  obtain ⟨-,⟨i,hi,hstart⟩,-⟩ := recorded_times (h.get (h.length_eq ▸ hk) hk)
  obtain ⟨-,-,j,v,hj,hstop⟩ := recorded_times (h.get (h.length_eq ▸ hl') hl')
  have hji : j < i := hclock.reflect_lt (hstop.trans_lt (hlt.trans_le hstart))
  have := hl.order j i _ _ v hj hi hji l k (List.getElem?_eq_getElem _) (List.getElem?_eq_getElem _)
  omega

/-- A log of calls that have a linearization is linearizable for the model. -/
theorem records_linearizable (hclock : Monotone clock) (hn : (invoked history).Nodup)
    {os : List Op} (hl : Linearizes machine Prod.fst ∅ history os)
    (h : Records clock history log) : LinearizableBy storeStep (fun _ => "") log := by
  have hc := records_called h
  obtain ⟨ops,hops,hrec⟩ := h
  have hperm : os ~ ops := by
    refine (List.perm_ext_iff_of_nodup hl.nodup (hops.nodup_iff.mpr hn)).mpr fun op =>
      ⟨fun hop => hops.mem_iff.mpr (hl.invoked op hop),fun hop => ?_⟩
    obtain ⟨k,hk,rfl⟩ := List.getElem_of_mem hop
    obtain ⟨-,-,j,v,hj,-⟩ := recorded_times (hrec.get hk (hrec.length_eq ▸ hk))
    obtain ⟨m,hm,-⟩ := hl.answered _ v (List.mem_of_getElem? hj)
    exact List.mem_of_getElem? hm
  obtain ⟨ordered,hordered,hlog⟩ := List.perm_comp_forall₂ hperm hrec
  rw [linearizable_operations storeStep _ log hc]
  refine ⟨ordered,hlog,recorded_timely hclock hl hordered,?_⟩
  exact recorded_fold hl (List.nil_append os).symm hordered

def put : KvOperation := logged (.put "k" "a") "" 0 1 0

def append : KvOperation := logged (.append "k" "b") "" 2 3 1

theorem log_parts : partition [put, append] = [[put, append]] := by
  have hkeys : (groups [put, append]).map Prod.fst = ["k"] := by decide
  rw [partition_sorted hkeys (by decide)]
  decide

/-- The entries of the log, sorted by time. -/
def logEntries : List (Entry KvInput KvOutput) :=
  [callOf 0 put, returnOf 0 put, callOf 1 append, returnOf 1 append]

theorem log_starts :
    StartsOperations (fillDefault kvModel) [put, append] (checkParallel [logEntries]) := by
  refine ⟨[logEntries],?_,rfl⟩
  rw [show (fillDefault kvModel).partition [put, append] = [[put, append]] from log_parts]
  exact .cons ⟨by decide,by decide⟩ .nil

/-- When all calls of a guarded run of the cluster have returned, the check of the
log that the tests recorded, whatever its goroutines do, has no fault, never
returns Illegal, and returns Ok unless the time was up. -/
theorem recorded_log_passes (encode : Requests × Values → Bytes)
    (decode : Bytes → Option (Requests × Values)) (n : ℕ) (nrand : ℤ → ℕ)
    (es : List KvCluster.Event) (x : System)
    (hm : Meets (KvCluster.step encode decode n) Guarded (initial n nrand) es)
    (h : exec (KvCluster.step encode decode n) (initial n nrand) es = some x)
    (hr : RoundTrips encode decode x.agreed) (clock : ℕ → ℤ) (hclock : Monotone clock)
    (log : List KvOperation) (hlog : Records clock x.history log) (verbose : Bool) (timeout : ℤ)
    (c₀ : Parallel String KvInput KvOutput)
    (h₀ : StartsOperations (fillDefault kvModel) log c₀) (checks : List ParallelChecker.Event)
    (c : Parallel String KvInput KvOutput)
    (hc : exec (ParallelChecker.step (fillDefault kvModel) verbose timeout) c₀ checks = some c) :
    c.panicked = false ∧ (c.phase = .finished →
      result c ≠ .illegal ∧ (.timeout ∉ checks → result c = .ok)) := by
  have hcalled := records_called hlog
  have hparts := partition_called hcalled
  have hsound := sound_shallow kvModel rfl
  obtain ⟨a,p,hgood⟩ := good_run nrand es hm h hr
  have hlin := (store_linearizable hcalled).mp
    (records_linearizable hclock hgood.once (good_linearizes hgood) hlog)
  refine ⟨?_,fun hphase => ?_⟩
  · obtain ⟨l,hl,rfl⟩ := h₀
    obtain ⟨m,ranks,sent,hinv,-⟩ := bounded_run hsound (sorted_histories hl hparts) hc
    exact hinv.panicked
  · obtain ⟨-,hillegal,hunknown⟩ := result_exact hsound hparts h₀ hc hphase
    have hlegal : result c ≠ .illegal := fun heq => by
      obtain ⟨part,hin,hnot⟩ := hillegal heq
      exact hnot (hlin part hin)
    refine ⟨hlegal,fun hno => ?_⟩
    cases hres : result c with
    | ok => rfl
    | illegal => exact absurd hres hlegal
    | unknown => exact absurd (hunknown hres).1 hno

theorem recorded_log_passes_restarted : ∃ x c,
    exec (KvCluster.step KvSnapshots.countClients KvSnapshots.lookUpPrefix 3)
      (initial 3 (fun _ => 0)) leaderRestarts = some x ∧
    Records (fun i => (i : ℤ)) x.history [put, append] ∧
    exec (ParallelChecker.step (fillDefault kvModel) true 1) (checkParallel [logEntries])
      (List.replicate 5 (.routine 0) ++ [.receive, .wait]) = some c ∧
    result c = .ok := by
  obtain ⟨x,hx,hview⟩ := Option.map_eq_some_iff.mp (by decide +kernel :
    (exec (KvCluster.step KvSnapshots.countClients KvSnapshots.lookUpPrefix 3)
      (initial 3 (fun _ => 0)) leaderRestarts).map (fun x => (x.agreed, x.history)) =
    some (KvSnapshots.twoClients,
      [.invoke ((Call.put "k" "a").operation 1 0), .respond ((Call.put "k" "a").operation 1 0) "",
        .invoke ((Call.append "k" "b").operation 2 0),
        .respond ((Call.append "k" "b").operation 2 0) ""]))
  obtain ⟨hagreed,hhistory⟩ := Prod.mk.inj hview
  obtain ⟨c,hc,hphase⟩ := Option.map_eq_some_iff.mp (by decide +kernel :
    (exec (ParallelChecker.step (fillDefault kvModel) true 1) (checkParallel [logEntries])
      (List.replicate 5 (.routine 0) ++ [.receive, .wait])).map Parallel.phase = some .finished)
  have hlog : Records (fun i => (i : ℤ)) x.history [put, append] := by
    rw [hhistory]
    refine ⟨_,.refl _,.cons (.mk 0 (i := 0) (j := 1) rfl rfl ?_ ?_ ?_)
      (.cons (.mk 1 (i := 2) (j := 3) rfl rfl ?_ ?_ ?_) .nil)⟩ <;> decide
  exact ⟨x,c,hx,hlog,hc,((recorded_log_passes _ _ 3 _ leaderRestarts x (by decide +kernel) hx
    (hagreed ▸ KvSnapshots.two_clients_round_trip) _ (fun _ _ h => Int.ofNat_le.mpr h) _ hlog true 1
    _ log_starts _ c hc).2 hphase).2 (by decide)⟩

end Mitdist.RecordedLog
