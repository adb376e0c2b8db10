import Mitdist.KvCluster

/-!
# One server of the key/value cluster

The messages between an instance and its server continue each other: a command
has the index after the message before it and carries the operation that is
agreed on for it, and a snapshot carries the tables of the prefix it stands
for. Whatever is still on the channel leads from what the server has handled to
what the instance has applied, unless an installed snapshot comes next. The
tables of the server are then those of the longest prefix that it was given, and
every result that a handler returns is right for its request.
-/

set_option autoImplicit false

namespace Mitdist.KvNodes
open Mitdist.RaftPeer Mitdist.RaftOutcomes Mitdist.KvServer Mitdist.Sessions Mitdist.KvReplay
open Mitdist.KvHandlers Mitdist.KvSnapshots Mitdist.Linearization Mitdist.KvCluster
open Mitdist.KvService (Service Outstanding Answered Consistent view serves_view sound_view)

section
variable (encode : Requests × Values → Bytes)

/-- The message that follows index `p` and the snapshot of index `s`, and the
indices that it leads to. -/
inductive Carries (agreed : List Op) (p : ℕ) (s : ℤ) : ApplyMsg Op → ℕ → ℤ → Prop where
  | command (op : Op) (h : agreed[p]? = some op) :
      Carries agreed p s (message (p + 1 : ℕ) op) (p + 1) s
  | snapshot (index term : ℕ) (taken : KVServer) (hlow : s < index) (hhigh : index ≤ agreed.length)
      (ht : KvReplay.replay (agreed.take index) = .ok taken) :
      Carries agreed p s (snapshotMessage index term (state encode taken)) index index

def Through (agreed : List Op) (p : ℕ) (s : ℤ) (q : ℕ) (t : ℤ) : Option (ApplyMsg Op) → Prop
  | none => q = p ∧ t = s
  | some m => Carries encode agreed p s m q t

/-- What an instance has applied follows what is on the channel, and a
snapshot that waits to be applied is newer than all that were sent. -/
structure Reaches (rf : Raft Op) (q : ℕ) (t : ℤ) : Prop where
  sent : t ≤ rf.lastIncludedIndex + 1
  waiting : rf.snapshotInstalled = true → t < rf.lastIncludedIndex + 1
  applied : rf.snapshotInstalled = false → (q:ℤ) = rf.lastApplied + 1

def Stream (agreed : List Op) (rf : Raft Op) (node : Node) (p : Position) : Prop :=
  ∃ q s q' s', Through encode agreed p.previous p.snapshot q s node.inbox ∧
    Through encode agreed q s q' s' node.outbox ∧ Reaches rf q' s'

structure Serving (s : Service) (rf : Raft Op) (node : Node) (p : Position) : Prop where
  exact : Exact s.agreed node.server.kv p
  stream : Stream encode s.agreed rf node p
  last : ∀ op, node.server.kv.lastApplyMsg.command = some op → op ∈ s.agreed.take p.delivered
  serves : Serves (view s p.delivered node.server.kv.lastApplyMsg.command) node.server

end

variable {encode : Requests × Values → Bytes} {agreed agreed' : List Op} {s s' : Service}
  {rf rf' : Raft Op} {node : Node} {p : Position}

theorem carries_within {q : ℕ} {t : ℤ} {m : ApplyMsg Op} {q' : ℕ} {t' : ℤ}
    (h : Carries encode agreed q t m q' t') : q' ≤ agreed.length := by
  cases h with
  | command op h => exact (List.getElem?_eq_some_iff.mp h).1
  | snapshot _ term taken hlow hhigh ht => exact hhigh

theorem through_within {q : ℕ} {t : ℤ} {q' : ℕ} {t' : ℤ} (box : Option (ApplyMsg Op))
    (h : Through encode agreed q t q' t' box) (hq : q ≤ agreed.length) : q' ≤ agreed.length := by
  cases box with
  | none => exact h.1 ▸ hq
  | some m => exact carries_within h

theorem take_agreed (h : agreed <+: agreed') (k : ℕ) (hk : k ≤ agreed.length) :
    agreed'.take k = agreed.take k := by
  obtain ⟨rest,rfl⟩ := h
  exact List.take_append_of_le_length hk

theorem replayed_grows (h : agreed <+: agreed') (k : ℕ) (hk : k ≤ agreed.length) :
    replayed agreed' k = replayed agreed k := by
  rw [replayed, replayed, take_agreed h k hk]

theorem through_grows (h : agreed <+: agreed') {q : ℕ} {t : ℤ} {q' : ℕ} {t' : ℤ}
    (box : Option (ApplyMsg Op)) (hb : Through encode agreed q t q' t' box) :
    Through encode agreed' q t q' t' box := by
  cases box with
  | none => exact hb
  | some m =>
    cases hb with
    | command op hop =>
      obtain ⟨rest,rfl⟩ := h
      refine .command op ?_
      rw [List.getElem?_append_left (List.getElem?_eq_some_iff.mp hop).1, hop]
    | snapshot _ term taken hlow hhigh ht =>
      exact .snapshot q' term taken hlow (hhigh.trans h.length_le)
        (by rw [take_agreed h q' hhigh, ht])

theorem exact_grows (h : agreed <+: agreed') {kv : KVServer} (hx : Exact agreed kv p) :
    Exact agreed' kv p where
  tables := by
    rw [replayed_grows h _ hx.within]
    exact hx.tables
  within := hx.within.trans h.length_le
  previous := hx.previous
  snapshot := hx.snapshot
  executed := hx.executed
  settled j h1 h2 h3 := by
    rw [replayed_grows h _ hx.within, replayed_grows h _ (h3.trans hx.within)]
    exact hx.settled j h1 h2 h3
  pending := hx.pending

theorem answered_grows (h : s.agreed <+: s'.agreed) (op : Op) (value : String)
    (ha : Answered s op value) : Answered s' op value := by
  obtain ⟨r,hcomp,hv⟩ := ha
  obtain ⟨rest,hrest⟩ := h
  exact ⟨r,hrest ▸ computed_append machine hcomp rest,hv⟩

/-- More calls, longer agreement, and fewer outstanding calls among the old. -/
theorem serving_grows (h : Serving encode s rf node p) (ha : s.agreed <+: s'.agreed)
    (hk : ∀ op ∈ invoked s.history, op ∈ invoked s'.history)
    (ho : ∀ op ∈ invoked s.history, Outstanding s' op → Outstanding s op) :
    Serving encode s' rf node p where
  exact := exact_grows ha h.exact
  stream := by
    obtain ⟨q,t,q',t',hin,hout,hreach⟩ := h.stream
    exact ⟨q,t,q',t',through_grows ha _ hin,through_grows ha _ hout,hreach⟩
  last op hop := by
    rw [take_agreed ha p.delivered h.exact.within]
    exact h.last op hop
  serves := serves_view h.serves (take_agreed ha p.delivered h.exact.within) hk ho
    (answered_grows ha)

/-- An action of a handler or a poll of the term. -/
theorem serving_action (decode : Bytes → Option (Requests × Values)) (hc : Consistent s)
    (h : Serving encode s rf node p) (a : Action) (r : Option Reply) (server : Server)
    (hk : ∀ op started, a = .operation op started → op ∈ invoked s.history)
    (hm : ∀ m, a ≠ .apply m) (hstep : KvHandlers.step decode node.server a = some (server, r)) :
    Serving encode s rf { node with server := server } p ∧
      ∀ d ∈ r, d.op ∈ invoked s.history ∧
        (d.err ≠ .errWrongLeader → Outstanding s d.op → Answered s d.op d.value) := by
  obtain ⟨w,t,hkv⟩ := acted_keeps hm (step_acted decode _ _ a r hstep)
  obtain ⟨hserves,hret⟩ := serves_step decode (sound_view hc _ _ h.last) node.server server
    h.serves a r hk hm hstep
  refine ⟨⟨?_,h.stream,?_,?_⟩,hret⟩
  · rw [hkv]
    exact exact_keeps h.exact w t
  · rw [hkv]
    exact h.last
  · have hlast : server.kv.lastApplyMsg = node.server.kv.lastApplyMsg := by rw [hkv]
    rw [hlast]
    exact hserves

theorem snapshot_last (decode : Bytes → Option (Requests × Values)) (kv kv' taken : KVServer)
    (index term : ℕ) (k : ℤ)
    (hdecode : decode (state encode taken) = some (taken.lastRequest, taken.values))
    (hsome : state encode taken ≠ [])
    (h : apply decode kv (snapshotMessage index term (state encode taken)) = .ok (kv', k)) :
    kv'.lastApplyMsg = kv.lastApplyMsg := by
  by_cases hnew : kv.lastExecutedIndex < index
  · rw [apply_restore encode decode kv taken index term hnew hdecode hsome] at h
    rw [← (Prod.mk.inj (Except.ok.inj h)).1]
    rfl
  · rw [apply_skip decode kv index term _ hnew] at h
    rw [(Prod.mk.inj (Except.ok.inj h)).1]

theorem replayed_command (h : Exact agreed node.server.kv p) (op : Op)
    (hop : agreed[p.previous]? = some op) :
    replayed agreed (max p.delivered (p.previous + 1)) =
      perform machine (replayed agreed p.delivered) op := by
  by_cases hst : Stale machine (replayed agreed p.delivered) op
  · rw [perform, if_pos hst]
    exact stale_replayed h op hop hst
  · have heq : p.previous = p.delivered := new_follows h op hop hst
    rw [heq] at hop ⊢
    rw [max_eq_right (Nat.le_succ _), replayed_succ agreed _ op hop]

/-- The server's loop handles the message that it has received. -/
theorem serving_handle (decode : Bytes → Option (Requests × Values)) (hc : Consistent s)
    (hr : RoundTrips encode decode s.agreed) (h : Serving encode s rf node p) (m : ApplyMsg Op)
    (hin : node.inbox = some m) (r : Option Reply) (server : Server)
    (hstep : KvHandlers.step decode node.server (.apply m) = some (server, r)) :
    r = none ∧ ∃ p', Serving encode s rf { node with inbox := none, server := server } p' := by
  obtain ⟨q,t,q',t',hq,hout,hreach⟩ := h.stream
  rw [hin] at hq
  cases hq with
  | command op hop =>
    have he : Executes op := hc.calls.executes op
      (hc.submitted op (hc.agreed op (List.mem_of_getElem? hop)))
    have hserves := serves_apply decode node.server server h.serves _ op he r hstep
    have hstore := replayed_command h.exact op hop
    cases step_acted decode _ _ _ r hstep with
    | applies _ kv k hmu hrec ha =>
      have hlast := (apply_tables decode h.exact.tables op he _ k ha).2
      refine ⟨rfl,p.command,exact_command decode h.exact op hop kv k ha,
        ⟨_,_,q',t',⟨rfl,rfl⟩,hout,hreach⟩,?_,?_⟩
      · intro o ho
        rw [hlast] at ho
        obtain rfl := Option.some.inj ho
        refine List.mem_of_getElem? (i := p.previous) ?_
        have hlt : p.previous < p.command.delivered :=
          lt_of_lt_of_le (Nat.lt_succ_self _) (le_max_right _ _)
        rw [List.getElem?_take_of_lt hlt, hop]
      · exact serves_mono _ hserves hstore (by simp [view, hlast, message]) (fun _ hk => hk)
          (fun _ _ _ hr => hr)
  | snapshot _ term taken hlow hhigh ht =>
    cases step_acted decode _ _ _ r hstep with
    | applies _ kv k hmu hrec ha =>
      obtain ⟨kv',k',ha',hexact⟩ := exact_snapshot decode h.exact hr q term hlow hhigh taken ht
      obtain ⟨rfl,-⟩ := Prod.mk.inj (Except.ok.inj (ha'.symm.trans ha))
      have hlast := snapshot_last decode _ _ taken q term k (hr q taken ht).1 (hr q taken ht).2 ha
      refine ⟨rfl,p.restore q,hexact,⟨_,_,q',t',⟨rfl,rfl⟩,hout,hreach⟩,fun o ho => ?_,?_⟩
      · rw [hlast] at ho
        exact (List.take_subset_take_left _ (le_max_left _ _)) (h.last o ho)
      · refine ⟨⟨h.serves.waiting,h.serves.holder,fun d value err hd => ?_⟩,hexact.tables,rfl⟩
        exact absurd hd (by simp [hmu])

theorem serving_receive (h : Serving encode s rf node p) (m : ApplyMsg Op)
    (hout : node.outbox = some m) (hin : node.inbox = none) :
    Serving encode s rf { node with outbox := none, inbox := some m } p := by
  obtain ⟨q,t,q',t',hq,hm,hreach⟩ := h.stream
  rw [hin] at hq
  rw [hout] at hm
  obtain ⟨rfl,rfl⟩ := hq
  exact { h with stream := ⟨q',t',q',t',hm,⟨rfl,rfl⟩,hreach⟩ }

/-- Where the channel ends when nothing waits on it. -/
theorem serving_end (h : Serving encode s rf node p) (hout : node.outbox = none) :
    ∃ q t, Through encode s.agreed p.previous p.snapshot q t node.inbox ∧
      q ≤ s.agreed.length ∧ Reaches rf q t := by
  obtain ⟨q,t,q',t',hq,ht,hreach⟩ := h.stream
  rw [hout] at ht
  obtain ⟨rfl,rfl⟩ := ht
  exact ⟨q',t',hq,through_within _ hq (h.exact.previous.trans h.exact.within),hreach⟩

theorem serving_instance (h : Serving encode s rf node p)
    (hreach : ∀ q t, Reaches rf q t → Reaches rf' q t) : Serving encode s rf' node p := by
  obtain ⟨q,t,q',t',hq,ht,hr⟩ := h.stream
  exact { h with stream := ⟨q,t,q',t',hq,ht,hreach q' t' hr⟩ }

/-- The snapshot that the polling loop takes stands for a prefix whose tables
are the current ones. -/
theorem serving_snapshot (h : Serving encode s rf node p) (hs : ∀ op ∈ s.agreed, Executes op)
    (kv : KVServer) (index : ℤ) (hi : initSnapshot node.server.kv = some (kv, index)) :
    Serving encode s rf { node with server := { node.server with kv := kv } } p ∧
      Taken encode s.agreed (index, state encode kv) := by
  obtain ⟨last,hlast,-⟩ := replay_tables s.agreed hs
  obtain ⟨hexact,htaken⟩ := exact_init_snapshot h.exact last hlast kv index hi
  have hkv :
      kv = { node.server.kv with lastSnapshotIndex := node.server.kv.lastExecutedIndex } := by
    rw [initSnapshot] at hi
    split_ifs at hi
    exact (Prod.mk.inj (Option.some.inj hi)).1.symm
  refine ⟨⟨hexact,h.stream,?_,?_⟩,htaken⟩
  · rw [hkv]
    exact h.last
  · rw [hkv]
    exact ⟨⟨h.serves.waiting,h.serves.holder,h.serves.sending⟩,
      ⟨h.serves.tables.values,h.serves.tables.last⟩,rfl⟩

theorem serving_start (hr : Reaches rf 0 (-1)) : Serving encode s rf startNode origin where
  exact := exact_start s.agreed
  stream := ⟨_,_,_,_,⟨rfl,rfl⟩,⟨rfl,rfl⟩,hr⟩
  last op hop := by simp [startNode, launch, startKVServer] at hop
  serves := serves_launch (by simp [view, origin]) rfl

end Mitdist.KvNodes
