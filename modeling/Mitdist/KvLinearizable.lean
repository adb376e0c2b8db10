import Mitdist.KvService

/-!
# The key/value service is linearizable

Every accepted operation takes effect once, at its first occurrence in the
agreed sequence, and every reply to an outstanding call has the value that
executing it there gives, whichever server answers and on whichever path.
-/

set_option autoImplicit false

namespace Mitdist.KvLinearizable
open Mitdist.RaftPeer Mitdist.RaftOutcomes Mitdist.KvServer Mitdist.Sessions Mitdist.KvReplay
open Mitdist.KvHandlers Mitdist.Linearization Mitdist.KvService Mitdist.TransitionSystem

/-- A server that is given the operations executes the one at an index. -/
def TakesEffect (ops : List Op) (i : ℕ) (op : Op) : Prop :=
  ops[i]? = some op ∧
    ∃ kv, replay (ops.take i) = .ok kv ∧ isDuplicate kv.lastRequest op = false

/-- What `execute` computes for an operation at its first occurrence. -/
def ValueAtFirst (ops : List Op) (op : Op) (value : String) : Prop :=
  ∃ i kv values err, First ops i op ∧ replay (ops.take i) = .ok kv ∧
    execute kv.values op = .ok (values, value, err)

theorem takes_effect_iff {ops : List Op} (hs : Sequential machine ops)
    (he : ∀ op ∈ ops, Executes op) (i : ℕ) (op : Op) :
    TakesEffect ops i op ↔ First ops i op := by
  obtain ⟨kv,hkv,ht⟩ := replay_tables (ops.take i) (fun o ho => he o (List.mem_of_mem_take ho))
  have hdup := is_duplicate_iff ht op
  constructor
  · rintro ⟨hop,kv',hkv',hnew⟩
    obtain rfl := Except.ok.inj (hkv.symm.trans hkv')
    refine (performed_iff_first machine hs ∅ hop).mp (fun hstale => ?_)
    simp [hdup.mpr hstale] at hnew
  · intro hi
    refine ⟨hi.1,kv,hkv,?_⟩
    have := (performed_iff_first machine hs ∅ hi.1).mpr hi
    simpa [← hdup] using this

theorem value_at_first {ops : List Op} (he : ∀ op ∈ ops, Executes op) (op : Op)
    (r : String × Err) (h : Computed machine ∅ ops op r) : ValueAtFirst ops op r.1 := by
  obtain ⟨i,hi,rfl⟩ := h
  obtain ⟨kv,hkv,ht⟩ := replay_tables (ops.take i) (fun o ho => he o (List.mem_of_mem_take ho))
  obtain ⟨⟨values,value,err⟩,hx⟩ := he op (List.mem_of_getElem? hi.1) kv.values
  refine ⟨i,kv,values,err,hi,hkv,?_⟩
  rw [← ht.values, machine_execute hx]
  exact hx

/-- In every run in which no client has two outstanding calls: every accepted
operation takes effect at its first occurrence in the agreed sequence and
nowhere else; every reply to an outstanding call that does not name a wrong
leader has the value that `execute` computes there; the tables of every server
are those of the operations that it was given; and the first occurrences are a
linearization of the calls and their results. -/
theorem service_linearizable (decode : Bytes → Option (Requests × Values)) (es : List Event)
    (s : Service) (hm : Meets (step decode) OneOutstanding initial es)
    (h : exec (step decode) initial es = some s) :
    (∀ op value, .respond op value ∈ s.history →
      ∃ i, First s.agreed i op ∧ ∀ j, TakesEffect s.agreed j op ↔ j = i) ∧
    (∀ r, (r, true) ∈ s.replies → r.err ≠ .errWrongLeader →
      ValueAtFirst s.agreed r.op r.value) ∧
    (∀ k, ∃ kv, replay (s.agreed.take (s.delivered k)) = .ok kv ∧
      (s.servers k).kv.values = kv.values ∧ (s.servers k).kv.lastRequest = kv.lastRequest) ∧
    Linearizes machine Prod.fst ∅ s.history (firsts s.agreed) := by
  have hs := exec_invariant (step decode) OneOutstanding Consistent
    (fun s e s' => consistent_step decode s s' e) es initial s consistent_initial hm h
  have he : ∀ op ∈ s.agreed, Executes op := fun op hop =>
    hs.calls.executes op (hs.submitted op (hs.agreed op hop))
  refine ⟨fun op value hop => ?_,fun r hr hne => ?_,fun k => ?_,?_⟩
  · obtain ⟨r,⟨i,hi,-⟩,-⟩ := hs.answered op value hop
    refine ⟨i,hi,fun j => ?_⟩
    rw [takes_effect_iff hs.sequential he]
    exact ⟨fun hj => first_unique hj hi,fun hj => hj ▸ hi⟩
  · obtain ⟨v,hv,heq⟩ := (hs.replies r true hr).2.2 rfl hne
    exact heq ▸ value_at_first he r.op v hv
  · obtain ⟨kv,hkv,ht⟩ := replay_tables (s.agreed.take (s.delivered k))
      (fun o ho => he o (List.mem_of_mem_take ho))
    exact ⟨kv,hkv,tables_unique (hs.servers k).tables ht⟩
  · exact linearizes_firsts machine Prod.fst ∅ s.history s.agreed hs.sequential
      (fun op hop => hs.submitted op (hs.agreed op hop)) hs.answered hs.respects

def putOp : Op := Call.operation 1 0 (.put "k" "v")

def getOp : Op := Call.operation 1 1 (.get "k")

/-- A handler of server 0 returns. -/
def answer (op : Op) : List Event :=
  [.commit op, .deliver 0, .serve 0 (.wake 0), .serve 0 .loop, .serve 0 .turn,
    .serve 0 .handlerDone]

/-- A put is agreed on twice. Its handler's reply is lost, and a retry at
another server is answered from the table there. A get follows. -/
def retriedPut : List Event :=
  [.call 1 (.put "k" "v"), .serve 0 (.refreshRaftTerm 1), .serve 0 (.operation putOp (1, 1, true)),
    .serve 0 .loop] ++ answer putOp ++
  [.commit putOp, .deliver 0, .deliver 1, .deliver 1, .serve 1 (.operation putOp (0, 0, false)),
    .accept 1, .call 1 (.get "k"), .serve 0 (.operation getOp (3, 1, true)), .serve 0 .loop] ++
  answer getOp ++ [.accept 2]

def noSnapshots : Bytes → Option (Requests × Values) := fun _ => none

theorem service_linearizable_retried :
    ∃ s, exec (step noSnapshots) initial retriedPut = some s ∧ s.agreed = [putOp, putOp, getOp] ∧
      s.history = [.invoke putOp, .respond putOp "", .invoke getOp, .respond getOp "v"] ∧
      Linearizes machine Prod.fst ∅ s.history (firsts s.agreed) :=
  ⟨_,rfl,by decide +kernel,by decide +kernel,
    (service_linearizable noSnapshots retriedPut _ (by decide +kernel) rfl).2.2.2⟩

end Mitdist.KvLinearizable
