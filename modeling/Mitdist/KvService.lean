import Mitdist.KvHandlers
import Mitdist.Linearization
import Mitdist.TransitionSystem

/-!
# The key/value service over an agreed sequence

Clerks number their calls and retry them at any server. An operation enters
the agreed sequence after some server submitted it to its Raft instance, any
number of times; every server is given the sequence in order, and a server
that restarts is given it again. If every client waits for the reply to a call
before it makes the next one, the first occurrences in the agreed sequence are
a linearization of the calls and their results.
-/

set_option autoImplicit false

namespace Mitdist.KvService
open Mitdist.RaftPeer Mitdist.RaftOutcomes Mitdist.KvServer Mitdist.Sessions Mitdist.KvReplay
open Mitdist.KvHandlers Mitdist.Linearization Mitdist.TransitionSystem

inductive Call where
  | get (key : String)
  | put (key value : String)
  | append (key value : String)
  deriving DecidableEq, Repr

def Call.operation (id requestNumber : ℤ) : Call → Op
  | .get key => (GetArgs.mk id requestNumber key).toOperation
  | .put key value => (PutAppendArgs.mk id requestNumber key value .put).toOperation
  | .append key value => (PutAppendArgs.mk id requestNumber key value .append).toOperation

/-- Which replies end a call of a clerk. -/
def accepts (op : Op) (err : Err) : Bool :=
  match op.type with
  | .get => err = .ok ∨ err = .errNoKey
  | .put | .append | .other _ _ => err = .ok

/-- `reqN` is the number that each clerk handed out last. A reply is recorded
with whether its call was still outstanding. -/
structure Service where
  reqN : ℤ → ℤ
  history : List (Act Op String)
  submitted : List Op
  agreed : List Op
  delivered : ℕ → ℕ
  servers : ℕ → Server
  replies : List (Reply × Bool)

def initial : Service := ⟨fun _ => -1,[],[],[],fun _ => 0,fun _ => launch,[]⟩

def Outstanding (s : Service) (op : Op) : Prop := op ∈ invoked s.history ∧ op ∉ answered s.history

instance decidableOutstanding (s : Service) (op : Op) : Decidable (Outstanding s op) :=
  inferInstanceAs (Decidable (_ ∧ _))

inductive Event where
  | call (id : ℤ) (c : Call)
  | serve (k : ℕ) (a : Action)
  | commit (op : Op)
  | deliver (k : ℕ)
  | restart (k : ℕ)
  | accept (i : ℕ)
  deriving DecidableEq

/-- A server handles operations that were called, and is given messages by
`deliver` only. -/
def Offered (s : Service) : Action → Prop
  | .operation op _ => op ∈ invoked s.history
  | .apply _ => False
  | _ => True

instance decidableOffered (s : Service) : ∀ a : Action, Decidable (Offered s a)
  | .operation op _ => inferInstanceAs (Decidable (op ∈ invoked s.history))
  | .apply _ => .isFalse id
  | .loop | .turn | .wake _ | .handlerDone | .refreshRaftTerm _ => .isTrue trivial

/-- The operation that a server submits to its Raft instance. -/
def submits (x : Server) : Action → List Op
  | .operation op (_, _, isLeader) =>
    if isDuplicate x.kv.lastRequest op = false ∧ isLeader = true then [op] else []
  | _ => []

section
variable (decode : Bytes → Option (Requests × Values))

def step (s : Service) : Event → Option Service
  | .call id c =>
    let reqN := s.reqN id + 1
    some { s with
      reqN := Function.update s.reqN id reqN
      history := s.history ++ [.invoke (c.operation id reqN)] }
  | .serve k a =>
    if Offered s a then do
      let (x, reply) ← KvHandlers.step decode (s.servers k) a
      return { s with
        servers := Function.update s.servers k x
        submitted := s.submitted ++ submits (s.servers k) a
        replies := s.replies ++ reply.toList.map (fun r => (r, decide (Outstanding s r.op))) }
    else none
  | .commit op =>
    if op ∈ s.submitted then some { s with agreed := s.agreed ++ [op] } else none
  | .deliver k => do
    let op ← s.agreed[s.delivered k]?
    let (x, _) ← KvHandlers.step decode (s.servers k) (.apply (message (s.delivered k + 1) op))
    return { s with
      servers := Function.update s.servers k x
      delivered := Function.update s.delivered k (s.delivered k + 1) }
  | .restart k => some { s with
      servers := Function.update s.servers k launch
      delivered := Function.update s.delivered k 0 }
  | .accept i => do
    let (r, _) ← s.replies[i]?
    if Outstanding s r.op ∧ accepts r.op r.err = true then
      return { s with history := s.history ++ [.respond r.op r.value] }
    else none

end

/-- A client makes a call when all its earlier ones have returned. -/
def OneOutstanding (s : Service) : Event → Prop
  | .call id _ => ∀ op ∈ invoked s.history, op.clientId = id → op ∈ answered s.history
  | _ => True

instance decidableOneOutstanding (s : Service) : ∀ e : Event, Decidable (OneOutstanding s e)
  | .call id _ => inferInstanceAs
      (Decidable (∀ op ∈ invoked s.history, op.clientId = id → op ∈ answered s.history))
  | .serve _ _ | .commit _ | .deliver _ | .restart _ | .accept _ => .isTrue trivial

def Answered (s : Service) (op : Op) (value : String) : Prop :=
  ∃ r, Computed machine ∅ s.agreed op r ∧ value = r.1

/-- What a server has to show that was delivered a number of the agreed
operations. -/
def view (s : Service) (delivered : ℕ) (applied : Option Op) : View where
  store := Sessions.replay machine ∅ (s.agreed.take delivered)
  applied := applied
  Known op := op ∈ invoked s.history
  Right op value := Outstanding s op → Answered s op value

/-- Clerks hand out numbers in increasing order. -/
structure Numbered (reqN : ℤ → ℤ) (history : List (Act Op String)) : Prop where
  numbered : ∀ op ∈ invoked history, op.requestNumber ≤ reqN op.clientId
  unique : ∀ a ∈ invoked history, ∀ b ∈ invoked history, a.clientId = b.clientId →
    a.requestNumber = b.requestNumber → a = b
  executes : ∀ op ∈ invoked history, Executes op

/-- Clerks make a call when the ones before it have returned. -/
structure Disciplined (reqN : ℤ → ℤ) (history : List (Act Op String)) : Prop
    extends Numbered reqN history where
  waits : ∀ a ∈ invoked history, ∀ b ∈ invoked history, a.clientId = b.clientId →
    a.requestNumber < b.requestNumber → a ∈ answered history

structure Consistent (s : Service) : Prop where
  calls : Disciplined s.reqN s.history
  submitted : ∀ op ∈ s.submitted, op ∈ invoked s.history
  agreed : ∀ op ∈ s.agreed, op ∈ s.submitted
  sequential : Sequential machine s.agreed
  answered : ∀ op value, .respond op value ∈ s.history → Answered s op value
  respects : Respects s.history s.agreed
  delivered : ∀ k, s.delivered k ≤ s.agreed.length
  servers : ∀ k,
    Serves (view s (s.delivered k) (s.agreed.take (s.delivered k)).getLast?) (s.servers k)
  replies : ∀ r timely, (r, timely) ∈ s.replies → r.op ∈ invoked s.history ∧
    (Outstanding s r.op → timely = true) ∧
    (timely = true → r.err ≠ .errWrongLeader → Answered s r.op r.value)

/-- A server is replaced, along with what has been delivered to it. -/
theorem servers_update {s : Service} (P : ℕ → Server → Prop)
    (h : ∀ j, P (s.delivered j) (s.servers j)) (k d : ℕ) (x : Server) (hx : P d x) (j : ℕ) :
    P (Function.update s.delivered k d j) (Function.update s.servers k x j) := by
  by_cases hj : j = k
  · subst hj
    simpa only [Function.update_self] using hx
  · simpa only [Function.update_of_ne hj] using h j

theorem numbered_nil (reqN : ℤ → ℤ) : Numbered reqN [] where
  numbered op h := by simp [invoked] at h
  unique a h := by simp [invoked] at h
  executes op h := by simp [invoked] at h

section
variable {reqN : ℤ → ℤ} {history : List (Act Op String)}

theorem number_new (h : Numbered reqN history) (op a : Op) (ha : a ∈ invoked history)
    (hn : op.requestNumber = reqN op.clientId + 1) (hc : a.clientId = op.clientId) :
    a.requestNumber < op.requestNumber := by
  have := hc ▸ h.numbered a ha
  omega

theorem numbered_invoke (h : Numbered reqN history) (op : Op)
    (hn : op.requestNumber = reqN op.clientId + 1) (he : Executes op) :
    Numbered (Function.update reqN op.clientId (reqN op.clientId + 1))
      (history ++ [.invoke op]) := by
  have hlow := fun a ha hc => number_new h op a ha hn hc
  have hmem : ∀ a, a ∈ invoked (history ++ [.invoke op]) → a ∈ invoked history ∨ a = op := by
    simp
  refine ⟨fun a ha => ?_,fun a ha b hb hc hab => ?_,fun a ha => ?_⟩
  · rcases hmem a ha with ha | rfl
    · by_cases hc : a.clientId = op.clientId
      · rw [hc, Function.update_self, ← hn]
        exact (hlow a ha hc).le
      · rw [Function.update_of_ne hc]
        exact h.numbered a ha
    · rw [Function.update_self, hn]
  · rcases hmem a ha with ha' | rfl <;> rcases hmem b hb with hb' | rfl
    · exact h.unique a ha' b hb' hc hab
    · exact absurd hab (hlow a ha' hc).ne
    · exact absurd hab (hlow b hb' hc.symm).ne'
    · rfl
  · rcases hmem a ha with ha | rfl
    · exact h.executes a ha
    · exact he

theorem numbered_respond (h : Numbered reqN history) (op : Op) (value : String) :
    Numbered reqN (history ++ [.respond op value]) := by
  refine ⟨?_,?_,?_⟩
  · simpa using h.numbered
  · simpa using h.unique
  · simpa using h.executes

theorem disciplined_invoke (h : Disciplined reqN history) (op : Op)
    (hn : op.requestNumber = reqN op.clientId + 1) (he : Executes op)
    (hw : ∀ a ∈ invoked history, a.clientId = op.clientId → a ∈ answered history) :
    Disciplined (Function.update reqN op.clientId (reqN op.clientId + 1))
      (history ++ [.invoke op]) := by
  have hmem : ∀ a, a ∈ invoked (history ++ [.invoke op]) → a ∈ invoked history ∨ a = op := by
    simp
  refine ⟨numbered_invoke h.toNumbered op hn he,fun a ha b hb hc hab => ?_⟩
  rw [answered_invoke]
  rcases hmem a ha with ha' | rfl <;> rcases hmem b hb with hb' | rfl
  · exact h.waits a ha' b hb' hc hab
  · exact hw a ha' hc
  · exact absurd hab (number_new h.toNumbered a b hb' hn hc.symm).not_gt
  · exact absurd hab (lt_irrefl _)

theorem disciplined_respond (h : Disciplined reqN history) (op : Op) (value : String) :
    Disciplined reqN (history ++ [.respond op value]) := by
  refine ⟨numbered_respond h.toNumbered op value,fun a ha b hb hc hab => ?_⟩
  rw [invoked_respond] at ha hb
  rw [answered_respond]
  exact List.mem_append_left _ (h.waits a ha b hb hc hab)

end

theorem call_executes (c : Call) (id requestNumber : ℤ) :
    Executes (c.operation id requestNumber) := by
  cases c with
  | get key => exact get_executes _
  | put key value => exact put_append_executes _
  | append key value => exact put_append_executes _

theorem answered_mem {s : Service} {op : Op} {value : String} (h : Answered s op value) :
    op ∈ s.agreed := by
  obtain ⟨r,⟨i,hi,-⟩,-⟩ := h
  exact List.mem_of_getElem? hi.1

/-- What the tables hold after some of the agreed operations was computed for
an operation that was called. -/
theorem table_source {s : Service} (h : Consistent s) (d : ℕ) (c : ℤ) (l : ℤ × String × Err)
    (hl : (Sessions.replay machine ∅ (s.agreed.take d)).last c = some l) :
    ∃ op ∈ invoked s.history, op.clientId = c ∧ op.requestNumber = l.1 ∧
      Answered s op l.2.1 := by
  obtain ⟨op,hc,hn,hcomp⟩ := (latest machine ∅ _ c).source l hl
  have ha : Answered s op l.2.1 := ⟨_,computed_of_take machine hcomp,rfl⟩
  exact ⟨op,h.submitted op (h.agreed op (answered_mem ha)),hc,hn,ha⟩

theorem sound_view {s : Service} (h : Consistent s) (d : ℕ) (applied : Option Op)
    (hlast : ∀ op, applied = some op → op ∈ s.agreed.take d) : Sound (view s d applied) where
  same op l hk hl hn := fun _ => by
    obtain ⟨o,ho,hc,hno,ha⟩ := table_source h d op.clientId l hl
    obtain rfl := h.calls.unique o ho op hk hc (hno.trans hn)
    exact ha
  passed op l value hk hl hlt := fun hout => by
    obtain ⟨o,ho,hc,hno,-⟩ := table_source h d op.clientId l hl
    exact absurd (h.calls.waits op hk o ho hc.symm (hlt.trans_eq hno.symm)) hout.2
  applied op hop := (stale_iff machine ∅ _ op).mpr ⟨op,hlast op hop,rfl,le_rfl⟩

/-- A server is not touched, and a result that was right for a call stays so. -/
theorem serves_view {s s' : Service} {d : ℕ} {applied : Option Op} {x : Server}
    (hx : Serves (view s d applied) x) (ht : s'.agreed.take d = s.agreed.take d)
    (hk : ∀ op ∈ invoked s.history, op ∈ invoked s'.history)
    (ho : ∀ op ∈ invoked s.history, Outstanding s' op → Outstanding s op)
    (ha : ∀ op value, Answered s op value → Answered s' op value) :
    Serves (view s' d applied) x :=
  serves_mono (view s' d applied) hx (by simp only [view, ht]) rfl hk
    (fun op value hop hr hout => ha op value (hr (ho op hop hout)))

theorem consistent_initial : Consistent initial where
  calls := ⟨numbered_nil _,fun a h => by simp [initial, invoked] at h⟩
  submitted op h := by simp [initial] at h
  agreed op h := by simp [initial] at h
  sequential := sequential_nil machine
  answered op value h := by simp [initial] at h
  respects i j a b v h := by simp [initial] at h
  delivered k := le_rfl
  servers k := serves_launch rfl rfl
  replies r timely h := by simp [initial] at h

theorem consistent_call {s : Service} (h : Consistent s) (op : Op)
    (hn : op.requestNumber = s.reqN op.clientId + 1) (he : Executes op)
    (hw : ∀ a ∈ invoked s.history, a.clientId = op.clientId → a ∈ answered s.history) :
    Consistent { s with
      reqN := Function.update s.reqN op.clientId (s.reqN op.clientId + 1)
      history := s.history ++ [.invoke op] } := by
  have hnew : op ∉ s.agreed := fun hop => by
    have := h.calls.numbered op (h.submitted op (h.agreed op hop))
    omega
  have hout : ∀ a ∈ invoked s.history,
      Outstanding { s with history := s.history ++ [.invoke op] } a → Outstanding s a :=
    fun a ha hout => ⟨ha,by simpa using hout.2⟩
  exact { h with
    calls := disciplined_invoke h.calls op hn he hw
    submitted := fun a ha => by simpa using Or.inl (h.submitted a ha)
    answered := fun a value ha => h.answered a value (by simpa using ha)
    respects := respects_invoke h.respects op hnew
    servers := fun k => serves_view (h.servers k) rfl (fun a ha => by simpa using Or.inl ha) hout
      (fun _ _ ha => ha)
    replies := fun r timely hr => by
      obtain ⟨hop,htime,hans⟩ := h.replies r timely hr
      exact ⟨by simpa using Or.inl hop,fun ho => htime (hout _ hop ho),hans⟩ }

theorem submits_invoked {s : Service} (a : Action) (ha : Offered s a) (x : Server) (op : Op)
    (h : op ∈ submits x a) : op ∈ invoked s.history := by
  cases a with
  | operation op' started =>
    obtain ⟨id,t,isLeader⟩ := started
    simp only [submits] at h
    split_ifs at h
    · exact List.mem_singleton.mp h ▸ ha
    · simp at h
  | _ => simp [submits] at h

theorem consistent_serve {s : Service} (h : Consistent s)
    (decode : Bytes → Option (Requests × Values)) (k : ℕ) (a : Action) (ha : Offered s a)
    (x : Server) (reply : Option Reply)
    (hs : KvHandlers.step decode (s.servers k) a = some (x, reply)) : Consistent { s with
      servers := Function.update s.servers k x
      submitted := s.submitted ++ submits (s.servers k) a
      replies := s.replies ++ reply.toList.map (fun r => (r, decide (Outstanding s r.op))) } := by
  have hop : ∀ op started, a = .operation op started → op ∈ invoked s.history := by
    rintro op started rfl
    exact ha
  have hsound := sound_view h (s.delivered k) _ (fun op hop => List.mem_of_getLast? hop)
  obtain ⟨hx,hret⟩ := serves_step decode hsound (s.servers k) x (h.servers k) a reply hop
    (by rintro m rfl; exact ha) hs
  exact { h with
    submitted := fun op hmem => by
      rcases List.mem_append.mp hmem with hmem | hmem
      · exact h.submitted op hmem
      · exact submits_invoked a ha (s.servers k) op hmem
    agreed := fun op hmem => List.mem_append_left _ (h.agreed op hmem)
    servers := (Function.forall_update_iff s.servers (fun j y =>
      Serves (view s (s.delivered j) (s.agreed.take (s.delivered j)).getLast?) y)).mpr
        ⟨hx,fun j _ => h.servers j⟩
    replies := fun r timely hr => by
      rcases List.mem_append.mp hr with hr | hr
      · exact h.replies r timely hr
      · obtain ⟨d,hd,heq⟩ := List.mem_map.mp hr
        obtain ⟨rfl,rfl⟩ := Prod.mk.inj heq
        obtain ⟨hknown,hright⟩ := hret d (by simpa using hd)
        exact ⟨hknown,fun ho => decide_eq_true ho,
          fun ht hne => hright hne (of_decide_eq_true ht)⟩ }

theorem consistent_commit {s : Service} (h : Consistent s) (op : Op) (hop : op ∈ s.submitted) :
    Consistent { s with agreed := s.agreed ++ [op] } := by
  have hmono : ∀ a value, Answered s a value →
      Answered { s with agreed := s.agreed ++ [op] } a value := by
    rintro a value ⟨r,hcomp,rfl⟩
    exact ⟨r,computed_append machine hcomp [op],rfl⟩
  have hin : ∀ a ∈ answered s.history, a ∈ s.agreed := fun a ha => by
    obtain ⟨value,hv⟩ := (mem_answered s.history a).mp ha
    exact answered_mem (h.answered a value hv)
  have htake : ∀ k, (s.agreed ++ [op]).take (s.delivered k) = s.agreed.take (s.delivered k) :=
    fun k => List.take_append_of_le_length (h.delivered k)
  have hcalled := h.submitted op hop
  exact { h with
    agreed := fun a ha => by
      rcases List.mem_append.mp ha with ha | ha
      · exact h.agreed a ha
      · exact List.mem_singleton.mp ha ▸ hop
    sequential := by
      refine sequential_concat machine h.sequential (fun hnew o ho hc => ?_)
      have hoc := h.submitted o (h.agreed o ho)
      rcases lt_trichotomy o.requestNumber op.requestNumber with hlt | heq | hgt
      · exact hlt
      · exact absurd (h.calls.unique o hoc op hcalled hc heq ▸ ho) hnew
      · exact absurd (hin op (h.calls.waits op hcalled o hoc hc.symm hgt)) hnew
    answered := fun a value ha => hmono a value (h.answered a value ha)
    respects := respects_concat h.respects op hin
    delivered := fun k => (h.delivered k).trans (by simp)
    servers := fun k => by
      simp only [htake k]
      exact serves_view (h.servers k) (htake k) (fun _ ha => ha) (fun _ _ ho => ho) hmono
    replies := fun r timely hr => by
      obtain ⟨hcall,htime,hans⟩ := h.replies r timely hr
      exact ⟨hcall,htime,fun ht hne => hmono _ _ (hans ht hne)⟩ }

theorem consistent_deliver {s : Service} (h : Consistent s)
    (decode : Bytes → Option (Requests × Values)) (k : ℕ) (op : Op)
    (hop : s.agreed[s.delivered k]? = some op) (x : Server) (reply : Option Reply)
    (hs : KvHandlers.step decode (s.servers k) (.apply (message (s.delivered k + 1) op)) =
      some (x, reply)) : Consistent { s with
      servers := Function.update s.servers k x
      delivered := Function.update s.delivered k (s.delivered k + 1) } := by
  have hmem := List.mem_of_getElem? hop
  have hlt := (List.getElem?_eq_some_iff.mp hop).1
  have he := h.calls.executes op (h.submitted op (h.agreed op hmem))
  have hx := serves_apply decode (s.servers k) x (h.servers k) _ op he reply hs
  have htake : s.agreed.take (s.delivered k + 1) = s.agreed.take (s.delivered k) ++ [op] := by
    rw [List.take_add_one, hop]
    rfl
  exact { h with
    delivered := (Function.forall_update_iff s.delivered (fun _ d => d ≤ s.agreed.length)).mpr
      ⟨hlt,fun j _ => h.delivered j⟩
    servers := servers_update (fun d y => Serves (view s d (s.agreed.take d).getLast?) y)
      h.servers k _ x (serves_mono _ hx (by simp only [view, htake, replay_concat])
        (by simp only [view, htake, List.getLast?_concat]) (fun _ ha => ha) (fun _ _ _ hr => hr)) }

theorem consistent_restart {s : Service} (h : Consistent s) (k : ℕ) : Consistent { s with
      servers := Function.update s.servers k launch
      delivered := Function.update s.delivered k 0 } :=
  { h with
    delivered := (Function.forall_update_iff s.delivered (fun _ d => d ≤ s.agreed.length)).mpr
      ⟨Nat.zero_le _,fun j _ => h.delivered j⟩
    servers := servers_update (fun d y => Serves (view s d (s.agreed.take d).getLast?) y)
      h.servers k 0 launch (serves_launch (by simp [view]) (by simp [view])) }

theorem accepts_leader (op : Op) (err : Err) (h : accepts op err = true) :
    err ≠ .errWrongLeader := by
  rintro rfl
  rw [accepts] at h
  cases hty : op.type <;> simp [hty] at h

theorem consistent_accept {s : Service} (h : Consistent s) (r : Reply) (timely : Bool)
    (hr : (r, timely) ∈ s.replies) (ho : Outstanding s r.op) (ha : accepts r.op r.err = true) :
    Consistent { s with history := s.history ++ [.respond r.op r.value] } := by
  have hne := accepts_leader r.op r.err ha
  obtain ⟨hcall,htime,hans⟩ := h.replies r timely hr
  have hout : ∀ a ∈ invoked s.history,
      Outstanding { s with history := s.history ++ [.respond r.op r.value] } a →
        Outstanding s a := fun a ha hout => ⟨ha,fun hmem => hout.2 (by simp [hmem])⟩
  exact { h with
    calls := disciplined_respond h.calls r.op r.value
    submitted := fun a ha => by simpa using h.submitted a ha
    answered := fun a value hmem => by
      rcases List.mem_append.mp hmem with hmem | hmem
      · exact h.answered a value hmem
      · obtain ⟨rfl,rfl⟩ := Act.respond.inj (List.mem_singleton.mp hmem)
        exact hans (htime ho) hne
    respects := respects_respond h.respects r.op r.value
    servers := fun k => serves_view (h.servers k) rfl (fun a ha => by simpa using ha) hout
      (fun _ _ ha => ha)
    replies := fun d t hd => by
      obtain ⟨hc,ht,hv⟩ := h.replies d t hd
      exact ⟨by simpa using hc,fun ho => ht (hout _ hc ho),hv⟩ }

theorem consistent_step (decode : Bytes → Option (Requests × Values)) (s s' : Service) (e : Event)
    (h : Consistent s) (hone : OneOutstanding s e) (hs : step decode s e = some s') :
    Consistent s' := by
  cases e with
  | call id c =>
    obtain rfl := Option.some.inj hs
    have hid : (c.operation id (s.reqN id + 1)).clientId = id := by cases c <;> rfl
    have hn : (c.operation id (s.reqN id + 1)).requestNumber = s.reqN id + 1 := by cases c <;> rfl
    have := consistent_call h (c.operation id (s.reqN id + 1)) (by rw [hid, hn])
      (call_executes c _ _) (by rw [hid]; exact hone)
    simpa only [hid] using this
  | serve k a =>
    simp only [step, Option.ite_none_right_eq_some, Option.bind_eq_bind, Option.bind_eq_some_iff,
      Option.pure_def, Option.some.injEq] at hs
    obtain ⟨ha,⟨x,reply⟩,hx,rfl⟩ := hs
    exact consistent_serve h decode k a ha x reply hx
  | commit op =>
    simp only [step, Option.ite_none_right_eq_some, Option.some.injEq] at hs
    obtain ⟨hop,rfl⟩ := hs
    exact consistent_commit h op hop
  | deliver k =>
    simp only [step, Option.bind_eq_bind, Option.bind_eq_some_iff, Option.pure_def,
      Option.some.injEq] at hs
    obtain ⟨op,hop,⟨x,reply⟩,hx,rfl⟩ := hs
    exact consistent_deliver h decode k op hop x reply hx
  | restart k =>
    obtain rfl := Option.some.inj hs
    exact consistent_restart h k
  | accept i =>
    simp only [step, Option.bind_eq_bind, Option.bind_eq_some_iff, Option.ite_none_right_eq_some,
      Option.pure_def, Option.some.injEq] at hs
    obtain ⟨⟨r,timely⟩,hr,⟨ho,ha⟩,rfl⟩ := hs
    exact consistent_accept h r timely (List.mem_of_getElem? hr) ho ha

end Mitdist.KvService
