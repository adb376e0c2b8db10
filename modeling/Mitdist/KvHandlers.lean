import Mitdist.KvReplay

/-!
# The handlers of a key/value server

A handler holds the server's mutex from the start of its operation until it
waits, and again from a wake-up until it waits once more or returns. It reads
the polled term twice, and the poll does not take the mutex. A handler that
meets the apply loop keeps the mutex until the loop receives. The values that
handlers return depend on the tables and on the last applied operation only.
-/

set_option autoImplicit false

namespace Mitdist.KvHandlers
open Mitdist.RaftPeer Mitdist.RaftOutcomes Mitdist.KvServer Mitdist.Sessions Mitdist.KvReplay

structure Handler where
  op : Op
  id : ℤ
  term : ℕ
  deriving DecidableEq, Repr

/-- Who holds the mutex: nobody, a handler before or after the condition of
its loop, or one that waits for the apply loop with its result. -/
inductive Mutex where
  | free
  | loop (h : Handler)
  | turn (h : Handler)
  | sending (h : Handler) (value : String) (err : Err)
  deriving DecidableEq, Repr

def Mutex.handler : Mutex → Option Handler
  | .free => none
  | .loop h | .turn h | .sending h _ _ => some h

structure Reply where
  op : Op
  value : String
  err : Err
  deriving DecidableEq, Repr

/-- `receives` is how often the apply loop still receives from the handlers. -/
structure Server where
  kv : KVServer
  mu : Mutex
  waiting : List Handler
  receives : ℕ

def launch : Server := ⟨startKVServer,.free,[],0⟩

inductive Action where
  | operation (op : Op) (started : ℤ × ℕ × Bool)
  | loop
  | turn
  | wake (i : ℕ)
  | handlerDone
  | apply (m : ApplyMsg Op)
  | refreshRaftTerm (term : ℕ)
  deriving DecidableEq

section
variable (decode : Bytes → Option (Requests × Values))

def step (x : Server) : Action → Option (Server × Option Reply)
  | .operation op started =>
    if x.mu = .free then do
      let (kv, outcome) ← (operation x.kv op started).toOption
      match outcome with
      | .reply value err => return ({ x with kv := kv }, some ⟨op,value,err⟩)
      | .registered id t => return ({ x with kv := kv, mu := .loop ⟨op,id,t⟩ }, none)
    else none
  | .loop =>
    match x.mu with
    | .loop h =>
      if keepsWaiting x.kv h.id h.term then
        some ({ x with mu := .free, waiting := x.waiting ++ [h] }, none)
      else some ({ x with mu := .turn h }, none)
    | _ => none
  | .turn =>
    match x.mu with
    | .turn h => do
      let (value, err) ← (handlersTurn x.kv h.op h.term).toOption
      let (kv, meets) := cleanupHandler x.kv h.id
      if meets then return ({ x with kv := kv, mu := .sending h value err }, none)
      else return ({ x with kv := kv, mu := .free }, some ⟨h.op,value,err⟩)
    | _ => none
  | .wake i =>
    if x.mu = .free then do
      let h ← x.waiting[i]?
      return ({ x with mu := .loop h, waiting := x.waiting.eraseIdx i }, none)
    else none
  | .handlerDone =>
    match x.mu with
    | .sending h value err =>
      if 0 < x.receives then
        some ({ x with mu := .free, receives := x.receives - 1 }, some ⟨h.op,value,err⟩)
      else none
    | _ => none
  | .apply m =>
    if x.mu = .free ∧ x.receives = 0 then do
      let (kv, n) ← (apply decode x.kv m).toOption
      return ({ x with kv := kv, receives := n.toNat }, none)
    else none
  | .refreshRaftTerm term => some ({ x with kv := refreshRaftTerm x.kv term }, none)

end

def deregistered (kv : KVServer) (id : ℤ) : KVServer :=
  { kv with
    nWaitingHandlers := Function.update kv.nWaitingHandlers id (kv.nWaitingHandlers id - 1) }

def registered (kv : KVServer) (id : ℤ) : KVServer :=
  { kv with
    nWaitingHandlers := Function.update kv.nWaitingHandlers id (kv.nWaitingHandlers id + 1) }

/-- What an action does, and under which conditions. -/
inductive Acted (decode : Bytes → Option (Requests × Values)) (x : Server) :
    Action → Server → Option Reply → Prop where
  | answered (op : Op) (started : ℤ × ℕ × Bool) (value : String) (err : Err) (hmu : x.mu = .free)
      (h : operation x.kv op started = .ok (x.kv, .reply value err)) :
      Acted decode x (.operation op started) x (some ⟨op,value,err⟩)
  | registers (op : Op) (id : ℤ) (t : ℕ) (hmu : x.mu = .free)
      (hnew : isDuplicate x.kv.lastRequest op = false) (hidle : x.kv.nWaitingHandlers id = 0) :
      Acted decode x (.operation op (id,t,true))
        { x with kv := registered x.kv id, mu := .loop ⟨op,id,t⟩ } none
  | waits (h : Handler) (hmu : x.mu = .loop h) (hk : keepsWaiting x.kv h.id h.term = true) :
      Acted decode x .loop { x with mu := .free, waiting := x.waiting ++ [h] } none
  | leaves (h : Handler) (hmu : x.mu = .loop h) (hk : keepsWaiting x.kv h.id h.term = false) :
      Acted decode x .loop { x with mu := .turn h } none
  | sends (h : Handler) (value : String) (err : Err) (hmu : x.mu = .turn h)
      (ht : handlersTurn x.kv h.op h.term = .ok (value, err))
      (hid : x.kv.lastApplyMsg.commandIndex = h.id) :
      Acted decode x .turn
        { x with kv := deregistered x.kv h.id, mu := .sending h value err } none
  | returns (h : Handler) (value : String) (err : Err) (hmu : x.mu = .turn h)
      (ht : handlersTurn x.kv h.op h.term = .ok (value, err))
      (hid : x.kv.lastApplyMsg.commandIndex ≠ h.id) :
      Acted decode x .turn { x with kv := deregistered x.kv h.id, mu := .free }
        (some ⟨h.op,value,err⟩)
  | wakes (i : ℕ) (h : Handler) (hmu : x.mu = .free) (hi : x.waiting[i]? = some h) :
      Acted decode x (.wake i) { x with mu := .loop h, waiting := x.waiting.eraseIdx i } none
  | received (h : Handler) (value : String) (err : Err) (hmu : x.mu = .sending h value err)
      (hr : 0 < x.receives) :
      Acted decode x .handlerDone { x with mu := .free, receives := x.receives - 1 }
        (some ⟨h.op,value,err⟩)
  | applies (m : ApplyMsg Op) (kv : KVServer) (n : ℤ) (hmu : x.mu = .free) (hr : x.receives = 0)
      (ha : apply decode x.kv m = .ok (kv, n)) :
      Acted decode x (.apply m) { x with kv := kv, receives := n.toNat } none
  | refreshes (term : ℕ) :
      Acted decode x (.refreshRaftTerm term) { x with kv := refreshRaftTerm x.kv term } none

/-- Answering a duplicate does not change the server. Otherwise a handler is
registered, or the server is not the leader. -/
theorem operation_cases {kv kv' : KVServer} (op : Op) (started : ℤ × ℕ × Bool) (outcome : Outcome)
    (h : operation kv op started = .ok (kv', outcome)) :
    (kv' = kv ∧ ∃ value err, outcome = .reply value err) ∨
      ∃ id t, started = (id,t,true) ∧ isDuplicate kv.lastRequest op = false ∧
        kv.nWaitingHandlers id = 0 ∧ kv' = registered kv id ∧ outcome = .registered id t := by
  obtain ⟨id,t,isLeader⟩ := started
  rw [operation] at h
  split_ifs at h with hdup hlead hidle
  · by_cases hrecent : (duplicateResult kv.lastRequest op).2 = true
    · simp only [hrecent, if_true] at h
      obtain ⟨rfl,rfl⟩ := Prod.mk.inj (Except.ok.inj h)
      exact Or.inl ⟨rfl,_,_,rfl⟩
    · simp only [hrecent] at h
      obtain ⟨rfl,rfl⟩ := Prod.mk.inj (Except.ok.inj h)
      exact Or.inl ⟨rfl,_,_,rfl⟩
  · obtain ⟨rfl,rfl⟩ := Prod.mk.inj (Except.ok.inj h)
    exact Or.inl ⟨rfl,_,_,rfl⟩
  · obtain ⟨rfl,rfl⟩ := Prod.mk.inj (Except.ok.inj h)
    have hyes : isLeader = true := by simpa using hlead
    subst hyes
    exact Or.inr ⟨id,t,rfl,by simpa using hdup,not_not.mp hidle,rfl,rfl⟩

theorem step_acted (decode : Bytes → Option (Requests × Values)) (x x' : Server) (a : Action)
    (r : Option Reply) (h : step decode x a = some (x', r)) : Acted decode x a x' r := by
  cases a with
  | operation op started =>
    simp only [step, Option.ite_none_right_eq_some, Option.bind_eq_bind, Option.bind_eq_some_iff,
      to_option_some] at h
    obtain ⟨hmu,⟨kv,outcome⟩,ho,h⟩ := h
    rcases operation_cases op started outcome ho with
      ⟨rfl,value,err,rfl⟩ | ⟨id,t,rfl,hnew,hidle,rfl,rfl⟩
    · obtain ⟨rfl,rfl⟩ := Prod.mk.inj (Option.some.inj h)
      exact .answered op started value err hmu ho
    · obtain ⟨rfl,rfl⟩ := Prod.mk.inj (Option.some.inj h)
      exact .registers op id t hmu hnew hidle
  | loop =>
    simp only [step] at h
    split at h
    · rename_i own hmu
      split_ifs at h with hk
      · obtain ⟨rfl,rfl⟩ := Prod.mk.inj (Option.some.inj h)
        exact .waits own hmu hk
      · obtain ⟨rfl,rfl⟩ := Prod.mk.inj (Option.some.inj h)
        exact .leaves own hmu (by simpa using hk)
    · cases h
  | turn =>
    simp only [step] at h
    split at h
    · rename_i own hmu
      simp only [Option.bind_eq_bind, Option.bind_eq_some_iff, to_option_some] at h
      obtain ⟨⟨value,err⟩,ht,h⟩ := h
      split_ifs at h with hid
      · obtain ⟨rfl,rfl⟩ := Prod.mk.inj (Option.some.inj h)
        exact .sends own value err hmu ht (by simpa [cleanupHandler] using hid)
      · obtain ⟨rfl,rfl⟩ := Prod.mk.inj (Option.some.inj h)
        exact .returns own value err hmu ht (by simpa [cleanupHandler] using hid)
    · cases h
  | wake i =>
    simp only [step, Option.ite_none_right_eq_some, Option.bind_eq_bind, Option.bind_eq_some_iff,
      Option.pure_def, Option.some.injEq, Prod.mk.injEq] at h
    obtain ⟨hmu,own,hi,rfl,rfl⟩ := h
    exact .wakes i own hmu hi
  | handlerDone =>
    simp only [step] at h
    split at h
    · rename_i own value err hmu
      split_ifs at h with hr
      obtain ⟨rfl,rfl⟩ := Prod.mk.inj (Option.some.inj h)
      exact .received own value err hmu hr
    · cases h
  | apply m =>
    simp only [step, Option.ite_none_right_eq_some, Option.bind_eq_bind, Option.bind_eq_some_iff,
      to_option_some, Option.pure_def, Option.some.injEq, Prod.mk.injEq] at h
    obtain ⟨⟨hmu,hr⟩,⟨kv,n⟩,ha,rfl,rfl⟩ := h
    exact .applies m kv n hmu hr ha
  | refreshRaftTerm term =>
    obtain ⟨rfl,rfl⟩ := Prod.mk.inj (Option.some.inj h)
    exact .refreshes term

/-- Only the apply loop changes more than the counts of handlers and the
polled term. -/
theorem acted_keeps {decode : Bytes → Option (Requests × Values)} {x x' : Server} {a : Action}
    {r : Option Reply} (hm : ∀ m, a ≠ .apply m) (h : Acted decode x a x' r) :
    ∃ n t, x'.kv = { x.kv with nWaitingHandlers := n, raftT := t } := by
  cases h with
  | applies m => exact absurd rfl (hm m)
  | registers | sends | returns | refreshes => exact ⟨_,_,rfl⟩
  | answered | waits | leaves | wakes | received => exact ⟨_,_,rfl⟩

/-- The handlers are for known requests, and a result that waits for the apply
loop is good. -/
structure Holds (Known : Op → Prop) (Good : Op → String → Err → Prop) (x : Server) : Prop where
  waiting : ∀ h ∈ x.waiting, Known h.op
  holder : ∀ h ∈ x.mu.handler, Known h.op
  sending : ∀ h value err, x.mu = .sending h value err → Good h.op value err

section
variable {Known : Op → Prop} {Good : Op → String → Err → Prop} {x x' : Server} {r : Option Reply}
  {kv kv' : KVServer}

theorem holds_launch : Holds Known Good launch where
  waiting h hh := by simp [launch] at hh
  holder h hh := by simp [launch, Mutex.handler] at hh
  sending h value err hh := by simp [launch] at hh

theorem holds_mono (hx : Holds Known Good x) (Known' : Op → Prop)
    (Good' : Op → String → Err → Prop) (hk : ∀ op, Known op → Known' op)
    (hg : ∀ op value err, Known op → Good op value err → Good' op value err) :
    Holds Known' Good' x where
  waiting h hh := hk h.op (hx.waiting h hh)
  holder h hh := hk h.op (hx.holder h hh)
  sending h value err hh :=
    hg h.op value err (hx.holder h (by rw [hh]; rfl)) (hx.sending h value err hh)

theorem holds_free (waiting : List Handler) (receives : ℕ) (hw : ∀ h ∈ waiting, Known h.op) :
    Holds Known Good ⟨kv,.free,waiting,receives⟩ :=
  ⟨hw,fun h hh => by simp [Mutex.handler] at hh,fun h value err hh => by simp at hh⟩

/-- What one action of a server other than `apply` does: it leaves the tables
and the last message alone, and every result that it returns or that waits for
the apply loop comes from an operation's first part or from a handler's turn. -/
theorem holds_step (decode : Bytes → Option (Requests × Values)) (hx : Holds Known Good x)
    (a : Action) (hk : ∀ op started, a = .operation op started → Known op)
    (hm : ∀ m, a ≠ .apply m)
    (hop : ∀ op started kv value err, a = .operation op started →
      operation x.kv op started = .ok (kv, .reply value err) → Good op value err)
    (hturn : ∀ h value err, a = .turn → x.mu = .turn h → Known h.op →
      handlersTurn x.kv h.op h.term = .ok (value, err) → Good h.op value err)
    (h : step decode x a = some (x', r)) :
    (x'.kv.values = x.kv.values ∧ x'.kv.lastRequest = x.kv.lastRequest ∧
      x'.kv.lastApplyMsg = x.kv.lastApplyMsg) ∧ Holds Known Good x' ∧
      ∀ d ∈ r, Known d.op ∧ Good d.op d.value d.err := by
  have hnone : ∀ d ∈ (none : Option Reply), Known d.op ∧ Good d.op d.value d.err :=
    fun d hd => by simp at hd
  have hacted := step_acted decode x x' a r h
  obtain ⟨n,t,hkv⟩ := acted_keeps hm hacted
  refine ⟨by rw [hkv]; exact ⟨rfl,rfl,rfl⟩,?_⟩
  cases hacted with
  | answered op started value err _ ho =>
    refine ⟨hx,fun d hd => ?_⟩
    obtain rfl := Option.some.inj hd
    exact ⟨hk op started rfl,hop op started x.kv value err rfl ho⟩
  | registers op id t =>
    refine ⟨⟨hx.waiting,fun d hd => ?_,fun d v e hd => by simp at hd⟩,hnone⟩
    obtain rfl := Option.some.inj hd
    exact hk op (id,t,true) rfl
  | waits own hmu =>
    refine ⟨holds_free _ _ (fun d hd => ?_),hnone⟩
    rcases List.mem_append.mp hd with hd | hd
    · exact hx.waiting d hd
    · exact List.mem_singleton.mp hd ▸ hx.holder own (by rw [hmu]; rfl)
  | leaves own hmu =>
    have hown := hx.holder own (by rw [hmu]; rfl)
    exact ⟨⟨hx.waiting,fun d hd => Option.some.inj hd ▸ hown,fun d v e hd => by simp at hd⟩,hnone⟩
  | sends own value err hmu ht =>
    have hown := hx.holder own (by rw [hmu]; rfl)
    refine ⟨⟨hx.waiting,fun d hd => Option.some.inj hd ▸ hown,fun d v e hd => ?_⟩,hnone⟩
    obtain ⟨rfl,rfl,rfl⟩ := Mutex.sending.inj hd
    exact hturn own value err rfl hmu hown ht
  | returns own value err hmu ht =>
    have hown := hx.holder own (by rw [hmu]; rfl)
    refine ⟨holds_free _ _ hx.waiting,fun d hd => ?_⟩
    obtain rfl := Option.some.inj hd
    exact ⟨hown,hturn own value err rfl hmu hown ht⟩
  | wakes i own _ hi =>
    exact ⟨⟨fun d hd => hx.waiting d (List.mem_of_mem_eraseIdx hd),
      fun d hd => Option.some.inj hd ▸ hx.waiting _ (List.mem_of_getElem? hi),
      fun d v e hd => by simp at hd⟩,hnone⟩
  | received own value err hmu =>
    refine ⟨holds_free _ _ hx.waiting,fun d hd => ?_⟩
    obtain rfl := Option.some.inj hd
    exact ⟨hx.holder own (by rw [hmu]; rfl),hx.sending _ _ _ hmu⟩
  | applies m => exact absurd rfl (hm m)
  | refreshes term => exact ⟨⟨hx.waiting,hx.holder,hx.sending⟩,hnone⟩

end

/-- The tables and the last applied operation, the requests that the handlers
are for and the values that are right for them. -/
structure View where
  store : Store Values (String × Err) ℤ
  applied : Option Op
  Known : Op → Prop
  Right : Op → String → Prop

/-- A result in the table is right for its request, anything is for a request
that the table has passed, and the table has the last applied operation. -/
structure Sound (w : View) : Prop where
  same : ∀ op l, w.Known op → w.store.last op.clientId = some l → l.1 = op.requestNumber →
    w.Right op l.2.1
  passed : ∀ op l value, w.Known op → w.store.last op.clientId = some l →
    op.requestNumber < l.1 → w.Right op value
  applied : ∀ op, w.applied = some op → Stale machine w.store op

def Returns (w : View) (op : Op) (value : String) (err : Err) : Prop :=
  w.Known op ∧ (err ≠ .errWrongLeader → w.Right op value)

structure Serves (w : View) (x : Server) : Prop extends Holds w.Known (Returns w) x where
  tables : Tables x.kv w.store
  applied : x.kv.lastApplyMsg.command = w.applied

section
variable {w : View} {kv kv' : KVServer}

theorem right_of_last (hw : Sound w) (op : Op) (hk : w.Known op) (l : ℤ × String × Err)
    (hl : w.store.last op.clientId = some l) (hn : op.requestNumber ≤ l.1) :
    w.Right op l.2.1 := by
  rcases hn.eq_or_lt with heq | hlt
  · exact hw.same op l hk hl heq.symm
  · exact hw.passed op l _ hk hl hlt

theorem last_of_lookup {x : Store Values (String × Err) ℤ} (h : Tables kv x) (c : ℤ) (r : Result)
    (hr : kv.lastRequest.lookup c = some r) :
    x.last c = some (r.requestNumber, r.result, r.error) := by
  rw [h.last, hr]
  rfl

/-- A reply of an operation's first part names a wrong leader, has the result
that the table holds for the request, or tells that the table has passed it. -/
theorem operation_outcome (op : Op) (started : ℤ × ℕ × Bool) (value : String) (err : Err)
    (h : operation kv op started = .ok (kv', .reply value err)) (hne : err ≠ .errWrongLeader) :
    ∃ r, kv.lastRequest.lookup op.clientId = some r ∧
      (r.requestNumber = op.requestNumber ∧ value = r.result ∧ err = .ok ∨
        op.requestNumber < r.requestNumber ∧ err = .outdated) := by
  obtain ⟨id,t,isLeader⟩ := started
  rw [operation] at h
  split_ifs at h with hdup hlead
  · rw [isDuplicate] at hdup
    cases hr : kv.lastRequest.lookup op.clientId with
    | none => simp [hr] at hdup
    | some r =>
      have hge : op.requestNumber ≤ r.requestNumber := by simpa [hr] using hdup
      rw [duplicateResult, hr] at h
      by_cases heq : r.requestNumber = op.requestNumber
      · simp only [heq, if_true] at h
        obtain ⟨rfl,rfl⟩ := Outcome.reply.inj (Prod.mk.inj (Except.ok.inj h)).2
        exact ⟨r,rfl,Or.inl ⟨heq,rfl,rfl⟩⟩
      · simp only [heq, if_false] at h
        obtain ⟨rfl,rfl⟩ := Outcome.reply.inj (Prod.mk.inj (Except.ok.inj h)).2
        exact ⟨r,rfl,Or.inr ⟨by omega,rfl⟩⟩
  · exact absurd (Outcome.reply.inj (Prod.mk.inj (Except.ok.inj h)).2).2.symm hne
  · simp at h

/-- A handler returns what the table holds for its client, if the last applied
operation is its own. -/
theorem handlers_turn_outcome (op : Op) (t : ℕ) (value : String) (err : Err)
    (h : handlersTurn kv op t = .ok (value, err)) (hne : err ≠ .errWrongLeader) :
    t = kv.raftT ∧ kv.lastApplyMsg.command = some op ∧
      value = ((kv.lastRequest.lookup op.clientId).getD {}).result := by
  rw [handlersTurn] at h
  split_ifs at h with ht
  · exact absurd (Prod.mk.inj (Except.ok.inj h)).2.symm hne
  · split at h
    · simp at h
    · rename_i appliedOp hop
      split_ifs at h with heq
      · exact absurd (Prod.mk.inj (Except.ok.inj h)).2.symm hne
      · have : appliedOp = op := (equals_iff appliedOp op).mp (by simpa using heq)
        exact ⟨not_not.mp ht,this ▸ hop,(Prod.mk.inj (Except.ok.inj h)).1.symm⟩

theorem operation_returns (hw : Sound w) (ht : Tables kv w.store) (op : Op) (hk : w.Known op)
    (started : ℤ × ℕ × Bool) (value : String) (err : Err)
    (h : operation kv op started = .ok (kv', .reply value err)) : Returns w op value err := by
  refine ⟨hk,fun hne => ?_⟩
  obtain ⟨r,hr,hcase⟩ := operation_outcome op started value err h hne
  have hl := last_of_lookup ht op.clientId r hr
  rcases hcase with ⟨hn,rfl,-⟩ | ⟨hlt,-⟩
  · exact hw.same op _ hk hl hn
  · exact hw.passed op _ _ hk hl hlt

theorem handlers_turn_returns (hw : Sound w) (ht : Tables kv w.store)
    (ha : kv.lastApplyMsg.command = w.applied) (op : Op) (hk : w.Known op) (t : ℕ) (value : String)
    (err : Err) (h : handlersTurn kv op t = .ok (value, err)) : Returns w op value err := by
  refine ⟨hk,fun hne => ?_⟩
  obtain ⟨-,hop,rfl⟩ := handlers_turn_outcome op t value err h hne
  obtain ⟨l,hl,hn⟩ := hw.applied op (ha ▸ hop)
  have hlast := ht.last op.clientId
  cases hr : kv.lastRequest.lookup op.clientId with
  | none =>
    simp [hlast, hr] at hl
  | some r =>
    have := last_of_lookup ht op.clientId r hr
    obtain rfl := Option.some.inj (this.symm.trans hl)
    exact right_of_last hw op hk _ hl hn

theorem serves_launch (hs : w.store = ⟨∅,fun _ => none⟩) (ha : w.applied = none) :
    Serves w launch := by
  refine ⟨holds_launch,?_,ha.symm⟩
  rw [hs]
  exact ⟨rfl,fun c => by simp [launch, startKVServer]⟩

/-- The view may change in what is known and right. -/
theorem serves_mono (w' : View) {x : Server} (hx : Serves w x) (hs : w'.store = w.store)
    (ha : w'.applied = w.applied) (hk : ∀ op, w.Known op → w'.Known op)
    (hr : ∀ op value, w.Known op → w.Right op value → w'.Right op value) : Serves w' x := by
  refine ⟨holds_mono hx.toHolds _ _ hk (fun op value err _ hret => ?_),hs ▸ hx.tables,
    ha ▸ hx.applied⟩
  exact ⟨hk op hret.1,fun hne => hr op value hret.1 (hret.2 hne)⟩

theorem serves_apply (decode : Bytes → Option (Requests × Values)) (x x' : Server)
    (hx : Serves w x) (index : ℤ) (op : Op) (he : Executes op) (r : Option Reply)
    (h : step decode x (.apply (message index op)) = some (x', r)) :
    Serves { w with store := perform machine w.store op, applied := some op } x' := by
  simp only [step, Option.ite_none_right_eq_some, Option.bind_eq_bind, Option.bind_eq_some_iff,
    to_option_some, Option.pure_def, Option.some.injEq, Prod.mk.injEq] at h
  obtain ⟨-,⟨kv,n⟩,happ,rfl,rfl⟩ := h
  obtain ⟨ht,hmsg⟩ := apply_tables decode hx.tables op he index n happ
  exact ⟨⟨hx.waiting,hx.holder,hx.sending⟩,ht,by rw [hmsg]; rfl⟩

/-- Whatever the handlers and the polls of the term do between two applied
messages, every result that is returned is right. -/
theorem serves_step (decode : Bytes → Option (Requests × Values)) (hw : Sound w) (x x' : Server)
    (hx : Serves w x) (a : Action) (r : Option Reply)
    (hk : ∀ op started, a = .operation op started → w.Known op) (hm : ∀ m, a ≠ .apply m)
    (h : step decode x a = some (x', r)) :
    Serves w x' ∧ ∀ d ∈ r, Returns w d.op d.value d.err := by
  obtain ⟨⟨hv,hl,hmsg⟩,hx',hret⟩ := holds_step decode hx.toHolds a hk hm
    (fun op started kv value err ha ho =>
      operation_returns hw hx.tables op (hk op started ha) started value err ho)
    (fun d value err _ _ hknown ht =>
      handlers_turn_returns hw hx.tables hx.applied d.op hknown d.term value err ht) h
  refine ⟨⟨hx',⟨hv.trans hx.tables.values,fun c => ?_⟩,?_⟩,fun d hd => (hret d hd).2⟩
  · rw [hl]
    exact hx.tables.last c
  · rw [hmsg]
    exact hx.applied

end

end Mitdist.KvHandlers
