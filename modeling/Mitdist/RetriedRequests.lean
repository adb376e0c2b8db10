import Mitdist.KvHandlers
import Mitdist.KvSnapshots

/-!
# Retried requests

A server with its handlers is fed an agreed sequence of operations and
snapshots of its prefixes. The handler of a request's first application
returns what the table then holds for its client, unless the polled term has
moved on. A retry of the request finds the same result on every server that has
applied it, but is always answered with the status `OK`. So both replies are the
same exactly if the term is still that of the handler and the request is not a
read of a key that has no value.
-/

set_option autoImplicit false

namespace Mitdist.RetriedRequests
open Mitdist.RaftPeer Mitdist.RaftOutcomes Mitdist.KvServer Mitdist.KvReplay Mitdist.Sessions
open Mitdist.TransitionSystem
open Mitdist.KvHandlers (Server Handler Mutex Action Reply Acted launch step_acted acted_keeps)
open Mitdist.KvSnapshots (Position origin deliver Exact RoundTrips replayed countClients
  lookUpPrefix twoClients two_clients_round_trip)

/-- A server with its handlers and what was delivered to it. -/
structure Node extends Position where
  server : Server

def boot : Node := ⟨origin,launch⟩

inductive Event where
  | feed (e : KvSnapshots.Event)
  | handler (a : Action)
  deriving DecidableEq

/-- A handler does not feed the apply loop. -/
def isApply : Action → Bool
  | .apply _ => true
  | _ => false

section
variable (encode : Requests × Values → Bytes) (decode : Bytes → Option (Requests × Values))

def step (s : List Op) (x : Node) : Event → Option (Node × Option Reply)
  | .feed .initSnapshot =>
    if x.server.mu = .free then
      match initSnapshot x.server.kv with
      | none => some (x, none)
      | some (kv, _) => some ({ x with server := { x.server with kv := kv } }, none)
    else none
  | .feed e => do
    let (m, p) ← deliver encode s x.toPosition e
    let (server, r) ← KvHandlers.step decode x.server (.apply m)
    return (⟨p,server⟩, r)
  | .handler a =>
    if isApply a then none
    else do
      let (server, r) ← KvHandlers.step decode x.server a
      return ({ x with server := server }, r)

def next (s : List Op) (x : Node) (e : Event) : Option Node :=
  (step encode decode s x e).map Prod.fst

end

section
variable {encode : Requests × Values → Bytes} {decode : Bytes → Option (Requests × Values)}
  {s : List Op} {x x' : Node}

/-- A message is applied. -/
theorem deliver_outcome (e : KvSnapshots.Event) (he : e ≠ .initSnapshot)
    (h : next encode decode s x (.feed e) = some x') : ∃ m p kv n,
      deliver encode s x.toPosition e = some (m, p) ∧ apply decode x.server.kv m = .ok (kv, n) ∧
      x' = ⟨p,{ x.server with kv := kv, receives := n.toNat }⟩ := by
  cases e with
  | command | snapshot =>
    simp only [next, step, Option.map_eq_some_iff, Option.bind_eq_bind, Option.bind_eq_some_iff,
      Option.pure_def, Option.some.injEq] at h
    obtain ⟨r,⟨⟨m,p⟩,hd,⟨server,r'⟩,hs,rfl⟩,rfl⟩ := h
    cases step_acted decode _ _ _ _ hs with
    | applies _ kv n _ _ ha => exact ⟨m,p,kv,n,hd,ha,rfl⟩
  | initSnapshot => exact absurd rfl he

theorem command_outcome (h : next encode decode s x (.feed .command) = some x') :
    ∃ op kv n, s[x.previous]? = some op ∧
      apply decode x.server.kv (message (x.previous + 1 : ℕ) op) = .ok (kv, n) ∧
      x' = ⟨x.toPosition.command,{ x.server with kv := kv, receives := n.toNat }⟩ := by
  obtain ⟨m,p,kv,n,hd,ha,rfl⟩ := deliver_outcome .command nofun h
  obtain ⟨op,hop,heq⟩ := Option.map_eq_some_iff.mp hd
  obtain ⟨rfl,rfl⟩ := Prod.mk.inj heq
  exact ⟨op,kv,n,hop,ha,rfl⟩

theorem handler_outcome (a : Action) (h : next encode decode s x (.handler a) = some x') :
    ∃ n t server, server.kv = { x.server.kv with nWaitingHandlers := n, raftT := t } ∧
      x' = { x with server := server } := by
  simp only [next, step, Option.map_eq_some_iff, Option.ite_none_left_eq_some,
    Option.bind_eq_bind, Option.bind_eq_some_iff, Option.pure_def, Option.some.injEq] at h
  obtain ⟨r,⟨ha,⟨server,r'⟩,hs,rfl⟩,rfl⟩ := h
  have hm : ∀ m, a ≠ .apply m := by
    rintro m rfl
    exact ha rfl
  obtain ⟨n,t,hkv⟩ := acted_keeps hm (step_acted decode _ _ _ _ hs)
  exact ⟨n,t,server,hkv,rfl⟩

/-- A poll of the snapshot loop moves the counter of snapshots only. -/
theorem poll_outcome (h : next encode decode s x (.feed .initSnapshot) = some x') :
    x' = x ∨ ∃ kv index, initSnapshot x.server.kv = some (kv, index) ∧
      x' = { x with server := { x.server with kv := kv } } := by
  simp only [next, step, Option.map_eq_some_iff, Option.ite_none_right_eq_some] at h
  obtain ⟨r,⟨-,h⟩,rfl⟩ := h
  cases hi : initSnapshot x.server.kv with
  | none =>
    rw [hi] at h
    rw [← Option.some.inj h]
    exact Or.inl rfl
  | some p =>
    rw [hi] at h
    rw [← Option.some.inj h]
    exact Or.inr ⟨p.1,p.2,rfl,rfl⟩

/-- The tables of a server with handlers are those of the longest prefix that
was delivered to it. -/
theorem exact_next (last : KVServer) (hs : KvReplay.replay s = .ok last)
    (hr : RoundTrips encode decode s) (x : Node) (e : Event) (x' : Node)
    (hx : Exact s x.server.kv x.toPosition) (h : next encode decode s x e = some x') :
    Exact s x'.server.kv x'.toPosition := by
  cases e with
  | feed e =>
    by_cases he : e = .initSnapshot
    · subst he
      rcases poll_outcome h with rfl | ⟨kv,index,hi,rfl⟩
      · exact hx
      · have hinit : Exact s kv x.toPosition ∧ KvSnapshots.Taken encode s _ :=
          KvSnapshots.exact_init_snapshot hx last hs kv index hi
        exact hinit.1
    · obtain ⟨m,p,kv,n,hd,ha,rfl⟩ := deliver_outcome e he h
      exact KvSnapshots.exact_deliver decode hx hr e m p hd kv n ha
  | handler a =>
    obtain ⟨n,t,server,hkv,rfl⟩ := handler_outcome a h
    rw [hkv]
    exact KvSnapshots.exact_keeps hx n t

theorem exact_reached (last : KVServer) (hs : KvReplay.replay s = .ok last)
    (hr : RoundTrips encode decode s) (es : List Event) (x : Node)
    (h : exec (next encode decode s) boot es = some x) : Exact s x.server.kv x.toPosition :=
  exec_always (next encode decode s) (fun x => Exact s x.server.kv x.toPosition)
    (exact_next last hs hr) es boot x (KvSnapshots.exact_start s) h

/-- The event takes no message from the apply channel. -/
def Between : Event → Prop
  | .feed .command | .feed (.snapshot _ _) => False
  | .feed .initSnapshot | .handler _ => True

theorem between_next (e : Event) (hb : Between e) (h : next encode decode s x e = some x') :
    x'.server.kv.lastRequest = x.server.kv.lastRequest ∧
      x'.server.kv.lastApplyMsg = x.server.kv.lastApplyMsg := by
  cases e with
  | feed e =>
    cases e with
    | command | snapshot => exact absurd hb id
    | initSnapshot =>
      rcases poll_outcome h with rfl | ⟨kv,index,hi,rfl⟩
      · exact ⟨rfl,rfl⟩
      · rw [initSnapshot] at hi
        split_ifs at hi
        rw [← (Prod.mk.inj (Option.some.inj hi)).1]
        exact ⟨rfl,rfl⟩
  | handler a =>
    obtain ⟨n,t,server,hkv,rfl⟩ := handler_outcome a h
    simp [hkv]

/-- Between two messages the table and the last applied message stay. -/
theorem between_keeps (es : List Event) (x x' : Node) (hes : ∀ e ∈ es, Between e)
    (h : exec (next encode decode s) x es = some x') :
    x'.server.kv.lastRequest = x.server.kv.lastRequest ∧
      x'.server.kv.lastApplyMsg = x.server.kv.lastApplyMsg := by
  refine exec_invariant (next encode decode s) (fun _ e => Between e)
    (fun u => u.server.kv.lastRequest = x.server.kv.lastRequest ∧
      u.server.kv.lastApplyMsg = x.server.kv.lastApplyMsg) ?_ es x x' ⟨rfl,rfl⟩
    (meets_of_mem _ _ es _ (fun _ e he => hes e he)) h
  intro u e v hu hb hv
  obtain ⟨hr,hl⟩ := between_next e hb hv
  exact ⟨hr.trans hu.1,hl.trans hu.2⟩

end

/-- The operation is not a read of a key that has no value. -/
def Found (values : Values) (op : Op) : Prop :=
  op.type = .get → ∀ key, op.args[0]? = some key → key ∈ values

theorem execute_status (values values' : Values) (op : Op) (r : String) (e : Err)
    (h : execute values op = .ok (values', r, e)) : e = .ok ↔ Found values op := by
  obtain ⟨type,args,c,n⟩ := op
  have hother : type ≠ .get → e = .ok → (e = .ok ↔ Found values ⟨type,args,c,n⟩) :=
    fun hne he => ⟨fun _ hget => absurd hget hne,fun _ => he⟩
  cases type with
  | get =>
    simp only [execute, bind_ok] at h
    obtain ⟨key,hkey,h⟩ := h
    have harg := ((load_ok _ _ _).mp hkey).2
    cases hv : values.lookup key with
    | none =>
      rw [hv] at h
      obtain ⟨-,-,rfl⟩ := by simpa [pure, Except.pure] using h
      refine iff_of_false (by simp) (fun hfound => ?_)
      exact Finmap.lookup_eq_none.mp hv (hfound rfl key harg)
    | some v =>
      rw [hv] at h
      obtain ⟨-,-,rfl⟩ := by simpa [pure, Except.pure] using h
      refine iff_of_true rfl (fun _ k hk => ?_)
      obtain rfl : key = k := Option.some.inj (harg.symm.trans hk)
      exact Finmap.mem_iff.mpr ⟨v,hv⟩
  | put =>
    simp only [execute, bind_ok] at h
    obtain ⟨key,-,value,-,h⟩ := h
    exact hother (by simp) (Prod.mk.inj (Prod.mk.inj (Except.ok.inj h)).2).2.symm
  | append =>
    simp only [execute, bind_ok] at h
    obtain ⟨key,-,value,-,h⟩ := h
    exact hother (by simp) (Prod.mk.inj (Prod.mk.inj (Except.ok.inj h)).2).2.symm
  | other name hname =>
    exact hother (by simp) (Prod.mk.inj (Prod.mk.inj (Except.ok.inj h)).2).2.symm

/-- What the first application of an operation puts into the table. -/
theorem first_application (kv kv' : KVServer) (decode : Bytes → Option (Requests × Values))
    (index n : ℤ) (op : Op) (hnew : isDuplicate kv.lastRequest op = false)
    (h : apply decode kv (message index op) = .ok (kv', n)) :
    kv'.lastApplyMsg = message index op ∧ ∃ values r e,
      execute kv.values op = .ok (values, r, e) ∧
      kv'.lastRequest.lookup op.clientId = some ⟨op.requestNumber,r,e⟩ := by
  rw [apply, if_neg (by simp [message]), bind_ok] at h
  obtain ⟨kv1,h1,h⟩ := h
  obtain ⟨rfl,-⟩ := Prod.mk.inj (Except.ok.inj h)
  simp only [executeIfNew, message, hnew, Bool.false_eq_true, if_false, bind_ok] at h1
  obtain ⟨⟨values,r,e⟩,he,h1⟩ := h1
  obtain rfl := Except.ok.inj h1
  exact ⟨rfl,values,r,e,he,Finmap.lookup_insert _⟩

theorem turn_of_applied (kv : KVServer) (index : ℤ) (op : Op) (r : Result) (t : ℕ)
    (hmsg : kv.lastApplyMsg = message index op)
    (hr : kv.lastRequest.lookup op.clientId = some r) :
    handlersTurn kv op t =
      .ok (if t = kv.raftT then (r.result, r.error) else ("", .errWrongLeader)) := by
  have hsame : equals op op = true := (equals_iff op op).mpr rfl
  by_cases ht : t = kv.raftT
  · simp [handlersTurn, ht, hmsg, message, hsame, hr]
  · simp [handlersTurn, ht]

theorem retry_of_recorded (kv : KVServer) (op : Op) (r : Result) (started : ℤ × ℕ × Bool)
    (hr : kv.lastRequest.lookup op.clientId = some r) (hn : r.requestNumber = op.requestNumber) :
    operation kv op started = .ok (kv, .reply r.result .ok) := by
  simp [operation, isDuplicate, duplicateResult, hr, hn]

theorem turn_sends (encode : Requests × Values → Bytes)
    (decode : Bytes → Option (Requests × Values)) (s : List Op) (x : Node) (h : Handler)
    (value : String) (err : Err) (hmu : x.server.mu = .turn h)
    (hturn : handlersTurn x.server.kv h.op h.term = .ok (value, err))
    (hid : x.server.kv.lastApplyMsg.commandIndex = h.id) :
    ∃ x', next encode decode s x (.handler .turn) = some x' ∧
      x'.server.mu = .sending h value err := by
  simp only [next, step, isApply, Bool.false_eq_true, if_false, KvHandlers.step, hmu, hturn,
    cleanupHandler, hid, decide_true, if_true]
  exact ⟨_,rfl,rfl⟩

theorem recorded_later (s : List Op) (i j : ℕ) (hij : i ≤ j) (c : ℤ) (l : ℤ × String × Err)
    (h : (replayed s i).last c = some l)
    (hold : ∀ o ∈ s.take j, o.clientId = c → o.requestNumber ≤ l.1) :
    (replayed s j).last c = some l := by
  have hsplit : s.take j = s.take i ++ (s.take j).drop i := by
    have htake := List.take_append_drop i (s.take j)
    rw [List.take_take, min_eq_left hij] at htake
    exact htake.symm
  rw [replayed, hsplit]
  exact replay_retains machine ∅ (s.take i) _ c l h
    (fun o ho hc => hold o (List.mem_of_mem_drop ho) hc)

/-- One server applies an operation for the first time while a handler waits
for it. Up to the next message of its apply channel, the handler's turn ends
with some value and status, and every server that was delivered the operation,
in any way and together with no newer request of the client, answers a retry
with some value and `OK`. Both are the same exactly if the polled term is that
of the handler at its turn and the operation is not a read of a key that had no
value. -/
theorem retried_request_same_iff (encode : Requests × Values → Bytes)
    (decode : Bytes → Option (Requests × Values)) (s : List Op) (last : KVServer)
    (hs : KvReplay.replay s = .ok last) (hr : RoundTrips encode decode s) (op : Op)
    (es es₁ es' : List Event) (x x₁ x₂ y : Node) (h : Handler)
    (hx : exec (next encode decode s) boot es = some x) (hop : s[x.previous]? = some op)
    (hnew : isDuplicate x.server.kv.lastRequest op = false)
    (hx₁ : next encode decode s x (.feed .command) = some x₁) (hes₁ : ∀ e ∈ es₁, Between e)
    (hx₂ : exec (next encode decode s) x₁ es₁ = some x₂) (hmu : x₂.server.mu = .turn h)
    (hown : h.op = op) (hid : h.id = (x.previous + 1 : ℕ))
    (hy : exec (next encode decode s) boot es' = some y) (happlied : x.previous < y.delivered)
    (hrecent : ∀ o ∈ s.take y.delivered, o.clientId = op.clientId →
      o.requestNumber ≤ op.requestNumber) :
    ∃ value err value' x₃, next encode decode s x₂ (.handler .turn) = some x₃ ∧
      x₃.server.mu = .sending h value err ∧
      (∀ started, operation y.server.kv op started = .ok (y.server.kv, .reply value' .ok)) ∧
      ((value, err) = (value', .ok) ↔
        h.term = x₂.server.kv.raftT ∧ Found x.server.kv.values op) := by
  have hxe := exact_reached last hs hr es x hx
  have hye := exact_reached last hs hr es' y hy
  have hx1e := exact_next last hs hr x (.feed .command) x₁ hxe hx₁
  obtain ⟨op',kv,n,hop',ha,rfl⟩ := command_outcome hx₁
  obtain rfl := Option.some.inj (hop.symm.trans hop')
  obtain ⟨hmsg,values,r,e,hexec,hlook⟩ := first_application _ kv decode _ n op hnew ha
  have hstatus := execute_status _ values op r e hexec
  obtain ⟨hl,hm⟩ := between_keeps es₁ _ x₂ hes₁ hx₂
  have hturn := turn_of_applied x₂.server.kv _ op ⟨op.requestNumber,r,e⟩ h.term (hm.trans hmsg)
    (by rw [hl]; exact hlook)
  generalize hpair : (if h.term = x₂.server.kv.raftT then (r, e) else ("", .errWrongLeader)) =
    pair at hturn
  obtain ⟨value,err⟩ := pair
  have hmeets : x₂.server.kv.lastApplyMsg.commandIndex = h.id := by
    rw [hm, hmsg, hid]
    rfl
  obtain ⟨x₃,hx₃,hsending⟩ := turn_sends encode decode s x₂ h value err hmu
    (by rw [hown]; exact hturn) hmeets
  refine ⟨value,err,r,x₃,hx₃,hsending,fun started => ?_,?_⟩
  · have hfresh : ¬ Stale machine (replayed s x.delivered) op := by
      intro hst
      have hdup : isDuplicate x.server.kv.lastRequest op = true :=
        (is_duplicate_iff hxe.tables op).mpr hst
      rw [hnew] at hdup
      cases hdup
    have hdelivered : x.delivered = x.previous :=
      (KvSnapshots.new_follows hxe op hop hfresh).symm
    have hlast := hx1e.tables.last op.clientId
    simp only [Position.command, hdelivered, max_eq_right (Nat.le_succ x.previous), hlook,
      Option.map_some] at hlast
    have hkept := recorded_later s (x.previous + 1) y.delivered happlied op.clientId _ hlast
      hrecent
    have hrec := (hye.tables.last op.clientId).symm.trans hkept
    obtain ⟨r',hr',heq⟩ := Option.map_eq_some_iff.mp hrec
    obtain ⟨hn,hres,-⟩ : r'.requestNumber = op.requestNumber ∧ r'.result = r ∧ r'.error = e := by
      simpa using heq
    rw [← hres]
    exact retry_of_recorded y.server.kv op r' started hr' hn
  · rw [← hpair, ← hstatus]
    by_cases hterm : h.term = x₂.server.kv.raftT
    · simp [hterm]
    · simp [hterm]

/-- A write of the first client at the first server, whose handler waits for
index one. -/
def writeStarted : List Event :=
  [.handler (.refreshRaftTerm 1),
    .handler (.operation ⟨.put,["k", "a"],1,0⟩ (1,1,true)), .handler .loop]

/-- The other server restores a snapshot that has the write. -/
theorem retried_request_same_restored : ∃ x x₁ x₂ y,
    exec (next countClients lookUpPrefix twoClients) boot writeStarted = some x ∧
    next countClients lookUpPrefix twoClients x (.feed .command) = some x₁ ∧
    exec (next countClients lookUpPrefix twoClients) x₁
      [.handler (.wake 0), .handler .loop] = some x₂ ∧
    exec (next countClients lookUpPrefix twoClients) boot [.feed (.snapshot 2 1)] = some y ∧
    ∃ value err value' x₃,
      next countClients lookUpPrefix twoClients x₂ (.handler .turn) = some x₃ ∧
      x₃.server.mu = .sending ⟨⟨.put,["k", "a"],1,0⟩,1,1⟩ value err ∧
      (∀ started, operation y.server.kv ⟨.put,["k", "a"],1,0⟩ started =
        .ok (y.server.kv, .reply value' .ok)) ∧ (value, err) = (value', .ok) := by
  obtain ⟨value,err,value',x₃,hx₃,hsend,hretry,hiff⟩ := retried_request_same_iff countClients
    lookUpPrefix twoClients _ rfl two_clients_round_trip ⟨.put,["k", "a"],1,0⟩
    writeStarted [.handler (.wake 0), .handler .loop] [.feed (.snapshot 2 1)] _ _ _ _
    ⟨⟨.put,["k", "a"],1,0⟩,1,1⟩ rfl rfl (by decide +kernel) rfl
    (by simp [Between]) rfl rfl rfl rfl rfl (by decide +kernel) (by decide +kernel)
  exact ⟨_,_,_,_,rfl,rfl,rfl,rfl,value,err,value',x₃,hx₃,hsend,hretry,
    hiff.mpr ⟨rfl,fun hget => by cases hget⟩⟩

def absentRead : Op := ⟨.get,["k"],1,0⟩

/-- A read of an absent key is started and applied, and its handler has its
turn. -/
def readApplied : List Event :=
  [.handler (.refreshRaftTerm 1), .handler (.operation absentRead (1,1,true)), .handler .loop,
    .feed .command, .handler (.wake 0), .handler .loop, .handler .turn]

/-- The read is answered with `ErrNoKey`, and its retry with `OK`. -/
theorem retried_request_differs : ∃ x x',
    exec (next countClients lookUpPrefix [absentRead]) boot readApplied = some x ∧
    step countClients lookUpPrefix [absentRead] x (.handler .handlerDone) =
      some (x', some ⟨absentRead,"",.errNoKey⟩) ∧
    step countClients lookUpPrefix [absentRead] x'
      (.handler (.operation absentRead (2,1,true))) = some (x', some ⟨absentRead,"",.ok⟩) :=
  ⟨_,_,rfl,rfl,rfl⟩

end Mitdist.RetriedRequests
