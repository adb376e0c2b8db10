import Mitdist.KvLinearizable

/-!
# Several calls of one clerk at a time

A clerk hands out its numbers under a mutex, so that several goroutines may
call it. The servers keep the highest number of each client only, and a handler
whose operation was applied answers with whatever the table holds for its
client. If a later number was committed first, the operation is skipped and the
handler reports success all the same. Calls are right in every run in which a
handler that answers finds its own number in the table.
-/

set_option autoImplicit false

namespace Mitdist.ConcurrentClerk
open Mitdist.RaftPeer Mitdist.RaftOutcomes Mitdist.KvServer Mitdist.Sessions Mitdist.KvReplay
open Mitdist.KvHandlers Mitdist.Linearization Mitdist.KvService Mitdist.KvLinearizable
open Mitdist.TransitionSystem

/-- The handler that is about to answer would find its own request if it looked
for it as the first part of an operation does. -/
def OwnNumber (x : Server) : Prop :=
  match x.mu with
  | .turn h => h.term = x.kv.raftT → x.kv.lastApplyMsg.command = some h.op →
      (duplicateResult x.kv.lastRequest h.op).2 = true
  | _ => True

instance decidableOwnNumber (x : Server) : Decidable (OwnNumber x) :=
  match h : x.mu with
  | .turn d => decidable_of_iff (d.term = x.kv.raftT → x.kv.lastApplyMsg.command = some d.op →
      (duplicateResult x.kv.lastRequest d.op).2 = true) (by simp [OwnNumber, h])
  | .free => .isTrue (by simp [OwnNumber, h])
  | .loop _ => .isTrue (by simp [OwnNumber, h])
  | .sending _ _ _ => .isTrue (by simp [OwnNumber, h])

def AnswersOwn (s : Service) : Event → Prop
  | .serve k .turn => OwnNumber (s.servers k)
  | _ => True

instance decidableAnswersOwn (s : Service) : ∀ e : Event, Decidable (AnswersOwn s e)
  | .serve k .turn => decidableOwnNumber (s.servers k)
  | .serve _ (.operation _ _) | .serve _ .loop | .serve _ (.wake _) | .serve _ .handlerDone
  | .serve _ (.apply _) | .serve _ (.refreshRaftTerm _) | .call _ _ | .commit _ | .deliver _
  | .restart _ | .accept _ => .isTrue trivial

theorem duplicate_own (lastRequest : Requests) (op : Op)
    (h : (duplicateResult lastRequest op).2 = true) :
    ∃ r, lastRequest.lookup op.clientId = some r ∧ r.requestNumber = op.requestNumber := by
  rw [duplicateResult] at h
  cases hr : lastRequest.lookup op.clientId with
  | none => simp [hr] at h
  | some r =>
    by_cases hn : r.requestNumber = op.requestNumber
    · exact ⟨r,rfl,hn⟩
    · simp [hr, hn] at h

/-- The operation is performed at its first occurrence, with this value. -/
def Executed (ops : List Op) (op : Op) (value : String) : Prop :=
  ∃ i, First ops i op ∧ ¬ Stale machine (Sessions.replay machine ∅ (ops.take i)) op ∧
    value = (machine.execute (Sessions.replay machine ∅ (ops.take i)).state op).2.1

theorem executed_append {ops : List Op} {op : Op} {value : String} (h : Executed ops op value)
    (ops' : List Op) : Executed (ops ++ ops') op value := by
  obtain ⟨i,hi,hnew,hv⟩ := h
  obtain ⟨hi',htake⟩ := first_append hi ops'
  exact ⟨i,hi',by rw [htake]; exact hnew,by rw [htake]; exact hv⟩

/-- What a table holds for a client was computed when the operation with that
number was performed, if no two operations have the same number. -/
theorem source_executed (ops : List Op) (hu : ∀ a ∈ ops, ∀ b ∈ ops, a.clientId = b.clientId →
      a.requestNumber = b.requestNumber → a = b) (c : ℤ) (l : ℤ × String × Err)
    (hl : (Sessions.replay machine ∅ ops).last c = some l) :
    ∃ op, op.clientId = c ∧ op.requestNumber = l.1 ∧ Executed ops op l.2.1 := by
  have hlatest := latest machine ∅ ops c
  obtain ⟨op,hc,hn,i,hi,hr⟩ := hlatest.source l hl
  refine ⟨op,hc,hn,i,hi,fun hst => ?_,by rw [hr]⟩
  obtain ⟨o,ho,hoc,hle⟩ := (stale_iff machine ∅ (ops.take i) op).mp hst
  have hmem := List.mem_of_mem_take ho
  have hupper := hlatest.upper l hl o hmem (hoc.trans hc)
  have hsame : o = op := hu o hmem op (List.mem_of_getElem? hi.1) hoc
    (le_antisymm (hupper.trans hn.ge) hle)
  exact hi.2 (hsame ▸ ho)

/-- A reply that ends the call has the value of the operation's execution. -/
def Good (ops : List Op) (op : Op) (value : String) (err : Err) : Prop :=
  accepts op err = true → Executed ops op value

/-- A server that was delivered a number of the agreed operations. -/
structure Attends (history : List (Act Op String)) (agreed : List Op) (delivered : ℕ)
    (x : Server) : Prop extends Holds (· ∈ invoked history) (Good agreed) x where
  within : delivered ≤ agreed.length
  tables : Tables x.kv (Sessions.replay machine ∅ (agreed.take delivered))
  applied : x.kv.lastApplyMsg.command = (agreed.take delivered).getLast?

structure Concurrent (s : Service) : Prop where
  calls : Numbered s.reqN s.history
  submitted : ∀ op ∈ s.submitted, op ∈ invoked s.history
  agreed : ∀ op ∈ s.agreed, op ∈ s.submitted
  servers : ∀ k, Attends s.history s.agreed (s.delivered k) (s.servers k)
  replies : ∀ r timely, (r, timely) ∈ s.replies → r.op ∈ invoked s.history ∧
    Good s.agreed r.op r.value r.err
  answered : ∀ op value, .respond op value ∈ s.history → Executed s.agreed op value

theorem attends_launch (history : List (Act Op String)) (agreed : List Op) :
    Attends history agreed 0 launch :=
  ⟨holds_launch,Nat.zero_le _,⟨rfl,fun c => by simp [launch, startKVServer]⟩,rfl⟩

theorem concurrent_initial : Concurrent initial where
  calls := numbered_nil _
  submitted op h := by simp [initial] at h
  agreed op h := by simp [initial] at h
  servers k := attends_launch _ _
  replies r timely h := by simp [initial] at h
  answered op value h := by simp [initial] at h

section
variable {s : Service} (h : Concurrent s)
include h

theorem invoked_agreed (op : Op) (hop : op ∈ s.agreed) : op ∈ invoked s.history :=
  h.submitted op (h.agreed op hop)

/-- If the table of a server has the number of a call, it has the result of its
execution. -/
theorem own_executed (k : ℕ) (op : Op) (hop : op ∈ invoked s.history) (r : Result)
    (hr : (s.servers k).kv.lastRequest.lookup op.clientId = some r)
    (hn : r.requestNumber = op.requestNumber) : Executed s.agreed op r.result := by
  have hl := last_of_lookup (h.servers k).tables op.clientId r hr
  have hin : ∀ a ∈ s.agreed.take (s.delivered k), a ∈ invoked s.history := fun a ha =>
    invoked_agreed h a (List.mem_of_mem_take ha)
  obtain ⟨o,hc,ho,hexec⟩ := source_executed _
    (fun a ha b hb => h.calls.unique a (hin a ha) b (hin b hb)) op.clientId _ hl
  have hmem : o ∈ s.agreed.take (s.delivered k) := by
    obtain ⟨i,hi,-⟩ := hexec
    exact List.mem_of_getElem? hi.1
  obtain rfl := h.calls.unique o (hin o hmem) op hop hc (ho.trans hn)
  have := executed_append hexec (s.agreed.drop (s.delivered k))
  rwa [List.take_append_drop] at this

theorem operation_good (k : ℕ) (op : Op) (hop : op ∈ invoked s.history) (started : ℤ × ℕ × Bool)
    (kv : KVServer) (value : String) (err : Err)
    (ho : operation (s.servers k).kv op started = .ok (kv, .reply value err)) :
    Good s.agreed op value err := by
  intro hacc
  obtain ⟨r,hr,⟨hn,rfl,-⟩ | ⟨-,rfl⟩⟩ := operation_outcome op started value err ho
    (accepts_leader op err hacc)
  · exact own_executed h k op hop r hr hn
  · rw [accepts] at hacc
    cases hty : op.type <;> simp [hty] at hacc

theorem turn_good (k : ℕ) (d : Handler) (hop : d.op ∈ invoked s.history)
    (hmu : (s.servers k).mu = .turn d) (hown : OwnNumber (s.servers k)) (value : String) (err : Err)
    (ht : handlersTurn (s.servers k).kv d.op d.term = .ok (value, err)) :
    Good s.agreed d.op value err := by
  intro hacc
  obtain ⟨hterm,happlied,rfl⟩ := handlers_turn_outcome d.op d.term value err ht
    (accepts_leader d.op err hacc)
  rw [OwnNumber, hmu] at hown
  obtain ⟨r,hr,hn⟩ := duplicate_own _ d.op (hown hterm happlied)
  rw [hr]
  exact own_executed h k d.op hop r hr hn

theorem concurrent_call (op : Op) (hn : op.requestNumber = s.reqN op.clientId + 1)
    (he : Executes op) : Concurrent { s with
      reqN := Function.update s.reqN op.clientId (s.reqN op.clientId + 1)
      history := s.history ++ [.invoke op] } := by
  have hin : ∀ a ∈ invoked s.history, a ∈ invoked (s.history ++ [.invoke op]) :=
    fun a ha => by simpa using Or.inl ha
  exact { h with
    calls := numbered_invoke h.calls op hn he
    submitted := fun a ha => hin a (h.submitted a ha)
    servers := fun k => { h.servers k with
      toHolds := holds_mono (h.servers k).toHolds _ _ hin (fun _ _ _ _ hg => hg) }
    replies := fun r timely hr => ⟨hin _ (h.replies r timely hr).1,(h.replies r timely hr).2⟩
    answered := fun a value ha => h.answered a value (by simpa using ha) }

theorem concurrent_serve (decode : Bytes → Option (Requests × Values)) (k : ℕ) (a : Action)
    (ha : Offered s a) (hown : AnswersOwn s (.serve k a)) (x : Server) (reply : Option Reply)
    (hs : KvHandlers.step decode (s.servers k) a = some (x, reply)) : Concurrent { s with
      servers := Function.update s.servers k x
      submitted := s.submitted ++ submits (s.servers k) a
      replies := s.replies ++ reply.toList.map (fun r => (r, decide (Outstanding s r.op))) } := by
  have hop : ∀ op started, a = .operation op started → op ∈ invoked s.history := by
    rintro op started rfl
    exact ha
  obtain ⟨⟨hv,hl,hmsg⟩,hx,hret⟩ := holds_step decode (h.servers k).toHolds a hop
    (by rintro m rfl; exact ha) (fun op started kv value err hact ho =>
      operation_good h k op (hop op started hact) started kv value err ho)
    (fun d value err hact hmu hknown ht => by
      subst hact
      exact turn_good h k d hknown hmu hown value err ht) hs
  exact { h with
    submitted := fun op hmem => by
      rcases List.mem_append.mp hmem with hmem | hmem
      · exact h.submitted op hmem
      · exact submits_invoked a ha (s.servers k) op hmem
    agreed := fun op hmem => List.mem_append_left _ (h.agreed op hmem)
    servers := (Function.forall_update_iff s.servers
        (fun j y => Attends s.history s.agreed (s.delivered j) y)).mpr
      ⟨⟨hx,(h.servers k).within,⟨hv.trans (h.servers k).tables.values,
        fun c => by rw [hl]; exact (h.servers k).tables.last c⟩,
        by rw [hmsg]; exact (h.servers k).applied⟩,fun j _ => h.servers j⟩
    replies := fun r timely hr => by
      rcases List.mem_append.mp hr with hr | hr
      · exact h.replies r timely hr
      · obtain ⟨d,hd,heq⟩ := List.mem_map.mp hr
        obtain ⟨rfl,-⟩ := Prod.mk.inj heq
        exact hret d (by simpa using hd) }

theorem concurrent_commit (op : Op) (hop : op ∈ s.submitted) :
    Concurrent { s with agreed := s.agreed ++ [op] } := by
  have hgood : ∀ o value err, Good s.agreed o value err → Good (s.agreed ++ [op]) o value err :=
    fun o value err hg hacc => executed_append (hg hacc) [op]
  exact { h with
    agreed := fun a ha => by
      rcases List.mem_append.mp ha with ha | ha
      · exact h.agreed a ha
      · exact List.mem_singleton.mp ha ▸ hop
    servers := fun k => by
      have hk := h.servers k
      refine ⟨holds_mono hk.toHolds _ _ (fun _ ha => ha)
        (fun o value err _ hg => hgood o value err hg),hk.within.trans (by simp),?_,?_⟩
      · rw [List.take_append_of_le_length hk.within]
        exact hk.tables
      · rw [List.take_append_of_le_length hk.within]
        exact hk.applied
    replies := fun r timely hr =>
      ⟨(h.replies r timely hr).1,hgood _ _ _ (h.replies r timely hr).2⟩
    answered := fun a value ha => executed_append (h.answered a value ha) [op] }

theorem concurrent_deliver (decode : Bytes → Option (Requests × Values)) (k : ℕ) (op : Op)
    (hop : s.agreed[s.delivered k]? = some op) (x : Server) (reply : Option Reply)
    (hs : KvHandlers.step decode (s.servers k) (.apply (message (s.delivered k + 1) op)) =
      some (x, reply)) : Concurrent { s with
      servers := Function.update s.servers k x
      delivered := Function.update s.delivered k (s.delivered k + 1) } := by
  have hlt := (List.getElem?_eq_some_iff.mp hop).1
  have he := h.calls.executes op (invoked_agreed h op (List.mem_of_getElem? hop))
  simp only [KvHandlers.step, Option.ite_none_right_eq_some, Option.bind_eq_bind,
    Option.bind_eq_some_iff, to_option_some, Option.pure_def, Option.some.injEq,
    Prod.mk.injEq] at hs
  obtain ⟨-,⟨kv,n⟩,happ,rfl,rfl⟩ := hs
  have hk := h.servers k
  obtain ⟨ht,hmsg⟩ := apply_tables decode hk.tables op he _ n happ
  rw [← replay_concat] at ht
  have htake : s.agreed.take (s.delivered k + 1) = s.agreed.take (s.delivered k) ++ [op] := by
    rw [List.take_add_one, hop]
    rfl
  exact { h with
    servers := servers_update (Attends s.history s.agreed) h.servers k _ _
      ⟨⟨hk.waiting,hk.holder,hk.sending⟩,hlt,by rw [htake]; exact ht,
        by rw [htake, List.getLast?_concat, hmsg]; rfl⟩ }

theorem concurrent_restart (k : ℕ) : Concurrent { s with
      servers := Function.update s.servers k launch
      delivered := Function.update s.delivered k 0 } :=
  { h with servers :=
      servers_update (Attends s.history s.agreed) h.servers k 0 launch (attends_launch _ _) }

theorem concurrent_accept (r : Reply) (timely : Bool) (hr : (r, timely) ∈ s.replies)
    (ha : accepts r.op r.err = true) :
    Concurrent { s with history := s.history ++ [.respond r.op r.value] } := by
  have hsame := invoked_respond s.history r.op r.value
  exact { h with
    calls := numbered_respond h.calls r.op r.value
    submitted := fun a ha => by rw [hsame]; exact h.submitted a ha
    servers := fun k => { h.servers k with
      toHolds := holds_mono (h.servers k).toHolds _ _ (fun a ha => by rw [hsame]; exact ha)
        (fun _ _ _ _ hg => hg) }
    replies := fun d t hd => ⟨by rw [hsame]; exact (h.replies d t hd).1,(h.replies d t hd).2⟩
    answered := fun a value hmem => by
      rcases List.mem_append.mp hmem with hmem | hmem
      · exact h.answered a value hmem
      · obtain ⟨rfl,rfl⟩ := Act.respond.inj (List.mem_singleton.mp hmem)
        exact (h.replies r timely hr).2 ha }

end

theorem concurrent_step (decode : Bytes → Option (Requests × Values)) (s s' : Service) (e : Event)
    (h : Concurrent s) (hown : AnswersOwn s e) (hs : KvService.step decode s e = some s') :
    Concurrent s' := by
  cases e with
  | call id c =>
    obtain rfl := Option.some.inj hs
    have hid : (c.operation id (s.reqN id + 1)).clientId = id := by cases c <;> rfl
    have hn : (c.operation id (s.reqN id + 1)).requestNumber = s.reqN id + 1 := by cases c <;> rfl
    have := concurrent_call h (c.operation id (s.reqN id + 1)) (by rw [hid, hn])
      (call_executes c _ _)
    simpa only [hid] using this
  | serve k a =>
    simp only [KvService.step, Option.ite_none_right_eq_some, Option.bind_eq_bind,
      Option.bind_eq_some_iff, Option.pure_def, Option.some.injEq] at hs
    obtain ⟨ha,⟨x,reply⟩,hx,rfl⟩ := hs
    exact concurrent_serve h decode k a ha hown x reply hx
  | commit op =>
    simp only [KvService.step, Option.ite_none_right_eq_some, Option.some.injEq] at hs
    obtain ⟨hop,rfl⟩ := hs
    exact concurrent_commit h op hop
  | deliver k =>
    simp only [KvService.step, Option.bind_eq_bind, Option.bind_eq_some_iff, Option.pure_def,
      Option.some.injEq] at hs
    obtain ⟨op,hop,⟨x,reply⟩,hx,rfl⟩ := hs
    exact concurrent_deliver h decode k op hop x reply hx
  | restart k =>
    obtain rfl := Option.some.inj hs
    exact concurrent_restart h k
  | accept i =>
    simp only [KvService.step, Option.bind_eq_bind, Option.bind_eq_some_iff,
      Option.ite_none_right_eq_some, Option.pure_def, Option.some.injEq] at hs
    obtain ⟨⟨r,timely⟩,hr,⟨-,ha⟩,rfl⟩ := hs
    exact concurrent_accept h r timely (List.mem_of_getElem? hr) ha

/-- An operation that is performed at its first occurrence takes effect there
and nowhere else. -/
theorem executed_once (ops : List Op) (he : ∀ op ∈ ops, Executes op) (op : Op) (value : String)
    (h : Executed ops op value) : ∃ i kv values err, (∀ j, TakesEffect ops j op ↔ j = i) ∧
      KvReplay.replay (ops.take i) = .ok kv ∧
      execute kv.values op = .ok (values, value, err) := by
  obtain ⟨i,hi,hnew,rfl⟩ := h
  have htables : ∀ j, ∃ kv, KvReplay.replay (ops.take j) = .ok kv ∧
      Tables kv (Sessions.replay machine ∅ (ops.take j)) := fun j =>
    replay_tables (ops.take j) (fun o ho => he o (List.mem_of_mem_take ho))
  obtain ⟨kv,hkv,ht⟩ := htables i
  obtain ⟨⟨values,value,err⟩,hx⟩ := he op (List.mem_of_getElem? hi.1) kv.values
  refine ⟨i,kv,values,err,fun j => ⟨?_,?_⟩,hkv,?_⟩
  · rintro ⟨hj,kv',hkv',hdup⟩
    obtain ⟨kv0,hkv0,ht0⟩ := htables j
    obtain rfl := Except.ok.inj (hkv'.symm.trans hkv0)
    refine first_unique ⟨hj,fun hmem => ?_⟩ hi
    have hst := (stale_iff machine ∅ (ops.take j) op).mpr ⟨op,hmem,rfl,le_rfl⟩
    rw [(is_duplicate_iff ht0 op).mpr hst] at hdup
    simp at hdup
  · rintro rfl
    refine ⟨hi.1,kv,hkv,?_⟩
    rw [← Bool.not_eq_true, is_duplicate_iff ht op]
    exact hnew
  · rw [← ht.values, machine_execute hx]
    exact hx

/-- In every run in which a handler that answers finds its own number in the
table, whatever the order in which the calls of one clerk are made, committed
and retried: the operation of every call that returned takes effect exactly
once, and the call returned the value that `execute` computes there. -/
theorem concurrent_calls (decode : Bytes → Option (Requests × Values)) (es : List Event)
    (s : Service) (hm : Meets (KvService.step decode) AnswersOwn initial es)
    (h : exec (KvService.step decode) initial es = some s) (op : Op) (value : String)
    (hop : .respond op value ∈ s.history) :
    ∃ i kv values err, (∀ j, TakesEffect s.agreed j op ↔ j = i) ∧
      KvReplay.replay (s.agreed.take i) = .ok kv ∧
      execute kv.values op = .ok (values, value, err) := by
  have hs := exec_invariant (KvService.step decode) AnswersOwn Concurrent
    (fun s e s' => concurrent_step decode s s' e) es initial s concurrent_initial hm h
  exact executed_once s.agreed (fun o ho => hs.calls.executes o (invoked_agreed hs o ho)) op value
    (hs.answered op value hop)

def firstPut : Op := Call.operation 1 0 (.put "k" "a")

def secondPut : Op := Call.operation 1 1 (.put "k" "b")

/-- Two goroutines call one clerk, and server 0 has submitted both operations
in this order. -/
def bothSubmitted (first second : Op) : List Event :=
  [.call 1 (.put "k" "a"), .call 1 (.put "k" "b"), .serve 0 (.refreshRaftTerm 1),
    .serve 0 (.operation first (1, 1, true)), .serve 0 .loop,
    .serve 0 (.operation second (2, 1, true)), .serve 0 .loop]

def inOrder : List Event :=
  bothSubmitted firstPut secondPut ++ answer firstPut ++ answer secondPut ++ [.accept 0, .accept 1]

theorem concurrent_calls_in_order : ∃ s,
    exec (KvService.step noSnapshots) initial inOrder = some s ∧
    s.history = [.invoke firstPut, .invoke secondPut, .respond firstPut "", .respond secondPut ""] ∧
    ∃ i kv values err, (∀ j, TakesEffect s.agreed j secondPut ↔ j = i) ∧
      KvReplay.replay (s.agreed.take i) = .ok kv ∧
      execute kv.values secondPut = .ok (values, "", err) :=
  ⟨_,rfl,by decide +kernel,
    concurrent_calls noSnapshots inOrder _ (by decide +kernel) rfl secondPut "" (by decide +kernel)⟩

/-- The operation with the larger number is committed first. The other one is
skipped as a duplicate, and its handler answers from the table. -/
def outOfOrder : List Event :=
  bothSubmitted secondPut firstPut ++ answer secondPut ++ answer firstPut ++ [.accept 1]

theorem out_of_order_lost : ∃ s, exec (KvService.step noSnapshots) initial outOfOrder = some s ∧
    .respond firstPut "" ∈ s.history ∧ firstPut ∈ s.agreed ∧
    ∀ j, ¬ TakesEffect s.agreed j firstPut := by
  obtain ⟨s,hs⟩ := Option.isSome_iff_exists.mp
    (by decide +kernel : (exec (KvService.step noSnapshots) initial outOfOrder).isSome)
  have h : ∀ s ∈ exec (KvService.step noSnapshots) initial outOfOrder,
      .respond firstPut "" ∈ s.history ∧ s.agreed = [secondPut, firstPut] := by decide +kernel
  obtain ⟨hreturned,hagreed⟩ := h s hs
  refine ⟨s,hs,hreturned,by simp [hagreed],?_⟩
  rw [hagreed]
  rintro j ⟨hj,kv,hkv,hdup⟩
  match j with
  | 0 => exact absurd hj (by decide +kernel)
  | 1 =>
    obtain rfl := Except.ok.inj hkv
    exact absurd hdup (by decide +kernel)
  | j+2 => simp at hj

/-- No operation is committed after one of the same client with a larger
number. -/
def CommitsInOrder (s : Service) : Event → Prop
  | .commit op => ∀ o ∈ s.agreed, o.clientId = op.clientId → o.requestNumber ≤ op.requestNumber
  | _ => True

def Ascending (ops : List Op) : Prop :=
  ops.Pairwise (fun a b => a.clientId = b.clientId → a.requestNumber ≤ b.requestNumber)

/-- The last operation of a sequence in which numbers ascend is the one that
the table has. -/
theorem last_own (ops : List Op) (ha : Ascending ops) (op : Op) (hl : ops.getLast? = some op) :
    ∃ r, (Sessions.replay machine ∅ ops).last op.clientId = some (op.requestNumber, r) := by
  obtain ⟨init,rfl⟩ := List.getLast?_eq_some_iff.mp hl
  have hlatest := latest machine ∅ (init ++ [op]) op.clientId
  have hmem : op ∈ init ++ [op] := by simp
  cases hlast : (Sessions.replay machine ∅ (init ++ [op])).last op.clientId with
  | none => exact absurd rfl (hlatest.absent hlast op hmem)
  | some l =>
    obtain ⟨o,hc,hn,i,hi,-⟩ := hlatest.source l hlast
    have hupper := hlatest.upper l hlast op hmem rfl
    have hle : o.requestNumber ≤ op.requestNumber := by
      rcases List.mem_append.mp (List.mem_of_getElem? hi.1) with ho | ho
      · exact (List.pairwise_append.mp ha).2.2 o ho op (by simp) hc
      · rw [List.mem_singleton.mp ho]
    simp only [machine_number] at hupper hn
    exact ⟨l.2,by rw [le_antisymm hupper (hn ▸ hle)]⟩

theorem in_order_own {s : Service} (h : Concurrent s) (ha : Ascending s.agreed) (e : Event) :
    AnswersOwn s e := by
  cases e with
  | serve k a =>
    cases a with
    | turn =>
      show OwnNumber (s.servers k)
      rw [OwnNumber]
      split
      · rename_i d hmu
        intro _ happlied
        have hlast := (h.servers k).applied.symm.trans happlied
        obtain ⟨r,hr⟩ := last_own _ (ha.sublist (List.take_sublist _ _)) d.op hlast
        rw [(h.servers k).tables.last] at hr
        obtain ⟨x,hx,heq⟩ := Option.map_eq_some_iff.mp hr
        have hn : x.requestNumber = d.op.requestNumber := (Prod.mk.inj heq).1
        rw [duplicateResult, hx]
        simp [hn]
      · trivial
    | _ => trivial
  | _ => trivial

theorem ascending_step (decode : Bytes → Option (Requests × Values)) (s s' : Service) (e : Event)
    (ha : Ascending s.agreed) (hin : CommitsInOrder s e)
    (hs : KvService.step decode s e = some s') : Ascending s'.agreed := by
  cases e with
  | commit op =>
    simp only [KvService.step, Option.ite_none_right_eq_some, Option.some.injEq] at hs
    obtain ⟨-,rfl⟩ := hs
    refine List.pairwise_append.mpr ⟨ha,List.pairwise_singleton _ _,fun o ho x hx => ?_⟩
    rw [List.mem_singleton.mp hx]
    exact hin o ho
  | call id c =>
    obtain rfl := Option.some.inj hs
    exact ha
  | restart k =>
    obtain rfl := Option.some.inj hs
    exact ha
  | _ =>
    simp only [KvService.step, Option.ite_none_right_eq_some, Option.bind_eq_bind,
      Option.bind_eq_some_iff, Option.pure_def, Option.some.injEq] at hs
    obtain ⟨_,_,_,_,rfl⟩ := hs
    exact ha

/-- Runs in which the operations of a client are committed in the order of
their numbers meet the condition. -/
theorem in_order_answers_own (decode : Bytes → Option (Requests × Values)) (es : List Event)
    (hm : Meets (KvService.step decode) CommitsInOrder initial es) :
    Meets (KvService.step decode) AnswersOwn initial es := by
  apply meets_under (KvService.step decode) CommitsInOrder AnswersOwn
    (fun s => Concurrent s ∧ Ascending s.agreed)
  · intro s e h _
    exact in_order_own h.1 h.2 e
  · intro s e s' h hin hs
    exact ⟨concurrent_step decode s s' e h.1 (in_order_own h.1 h.2 e) hs,
      ascending_step decode s s' e h.2 hin hs⟩
  · exact ⟨concurrent_initial,List.Pairwise.nil⟩
  · exact hm

end Mitdist.ConcurrentClerk
