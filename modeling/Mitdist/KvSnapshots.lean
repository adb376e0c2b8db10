import Mitdist.KvReplay
import Mitdist.TransitionSystem

/-!
# Snapshots of the server's tables

The apply loop is fed an agreed sequence of operations, in order from the
index of the last message on, and snapshots of its prefixes. A snapshot may be
behind what was delivered, and then commands come again. The tables are those
of the longest prefix that was delivered, because a command that comes again is
a duplicate, an outdated snapshot is restored only if nothing was executed
since, and restoring a later one overwrites all the keys that there are.
-/

set_option autoImplicit false

namespace Mitdist.KvSnapshots
open Mitdist.RaftPeer Mitdist.RaftOutcomes Mitdist.KvServer Mitdist.KvReplay Mitdist.Sessions
open Mitdist.TransitionSystem

def snapshotMessage (index term : ℕ) (snapshot : Bytes) : ApplyMsg Op :=
  { snapshotValid := true, snapshot := snapshot, snapshotTerm := term, snapshotIndex := index }

/-- The index of the last message, that of the last snapshot and the largest
index that was delivered. -/
structure Position where
  previous : ℕ
  snapshot : ℤ
  delivered : ℕ

def origin : Position := ⟨0,-1,0⟩

def Position.command (p : Position) : Position :=
  { p with previous := p.previous + 1, delivered := max p.delivered (p.previous + 1) }

def Position.restore (p : Position) (index : ℕ) : Position :=
  ⟨index,index,max p.delivered index⟩

/-- The server, what was delivered to it and its calls of `Snapshot`. -/
structure Feed extends Position where
  kv : KVServer
  calls : List (ℤ × Bytes)

def start : Feed := ⟨origin,startKVServer,[]⟩

inductive Event where
  | command
  | snapshot (index term : ℕ)
  | initSnapshot
  deriving DecidableEq, Repr

section
variable (encode : Requests × Values → Bytes) (decode : Bytes → Option (Requests × Values))

def state (kv : KVServer) : Bytes := encode (kv.lastRequest, kv.values)

/-- The next message of the channel and where it leads. A command has the index
after that of the last message. A snapshot has a larger index than the last
snapshot and carries the tables of its prefix. -/
def deliver (s : List Op) (p : Position) : Event → Option (ApplyMsg Op × Position)
  | .command => (s[p.previous]?).map (fun op => (message (p.previous + 1 : ℕ) op, p.command))
  | .snapshot index term =>
    if p.snapshot < index ∧ index ≤ s.length then
      (KvReplay.replay (s.take index)).toOption.map (fun taken =>
        (snapshotMessage index term (state encode taken), p.restore index))
    else none
  | .initSnapshot => none

def step (s : List Op) (x : Feed) : Event → Option Feed
  | .initSnapshot =>
    match initSnapshot x.kv with
    | none => some x
    | some (kv, index) => some { x with
        kv := kv
        calls := x.calls ++ [(index, state encode kv)] }
  | e => do
    let (m, p) ← deliver encode s x.toPosition e
    let (kv, _) ← (apply decode x.kv m).toOption
    return { x with toPosition := p, kv := kv }

end

/-- The tables of a prefix of the sequence. -/
def replayed (s : List Op) (i : ℕ) : Store Values (String × Err) ℤ :=
  Sessions.replay machine ∅ (s.take i)

theorem replayed_succ (s : List Op) (i : ℕ) (op : Op) (h : s[i]? = some op) :
    replayed s (i+1) = perform machine (replayed s i) op := by
  rw [replayed, List.take_add_one, h]
  exact replay_concat machine ∅ (s.take i) op

theorem replayed_stale (s : List Op) (i k : ℕ) (op : Op) (h : s[i]? = some op) (hik : i < k) :
    Stale machine (replayed s k) op := by
  rw [replayed, stale_iff]
  refine ⟨op,List.mem_of_getElem? (i := i) ?_,rfl,le_rfl⟩
  rw [List.getElem?_take_of_lt hik, h]

theorem replay_concat_ok (ops : List Op) (op : Op) (kv' : KVServer)
    (h : KvReplay.replay (ops ++ [op]) = .ok kv') :
    ∃ kv, KvReplay.replay ops = .ok kv ∧
      executeIfNew kv (message (1 + ops.length) op) = .ok kv' := by
  rw [KvReplay.replay, execute_all_concat] at h
  exact (bind_ok _ _ _).mp h

theorem replay_reached (ops : List Op) (kv : KVServer) (h : KvReplay.replay ops = .ok kv) :
    Tables kv (Sessions.replay machine ∅ ops) := by
  induction ops using List.reverseRecOn generalizing kv with
  | nil =>
    obtain rfl := Except.ok.inj h
    exact ⟨rfl,fun c => by simp [startKVServer]⟩
  | append_singleton ops op ih =>
    obtain ⟨kv0,h0,he⟩ := replay_concat_ok ops op kv h
    rw [replay_concat]
    exact (execute_if_new_outcome (ih kv0 h0) op _ he).1

theorem replay_below (ops ops' : List Op) (kv' : KVServer)
    (h : KvReplay.replay (ops ++ ops') = .ok kv') : ∃ kv, KvReplay.replay ops = .ok kv := by
  induction ops' using List.reverseRecOn generalizing kv' with
  | nil => exact ⟨kv',by simpa using h⟩
  | append_singleton ops' op ih =>
    rw [← List.append_assoc] at h
    obtain ⟨kv,hkv,-⟩ := replay_concat_ok _ op kv' h
    exact ih kv hkv

theorem replay_take (s : List Op) (last : KVServer) (hs : KvReplay.replay s = .ok last) (i : ℕ) :
    ∃ kv, KvReplay.replay (s.take i) = .ok kv ∧ Tables kv (replayed s i) := by
  rw [← List.take_append_drop i s] at hs
  obtain ⟨kv,hkv⟩ := replay_below _ _ last hs
  exact ⟨kv,hkv,replay_reached _ kv hkv⟩

theorem execute_keeps (values : Values) (op : Op) (r : Values × String × Err)
    (h : execute values op = .ok r) (key : String) (hk : key ∈ values) : key ∈ r.1 := by
  obtain ⟨type,args,c,n⟩ := op
  cases type with
  | get =>
    simp only [execute, bind_ok] at h
    obtain ⟨k,-,h⟩ := h
    cases hv : values.lookup k with
    | none =>
      rw [hv] at h
      rw [← Except.ok.inj h]
      exact hk
    | some v =>
      rw [hv] at h
      rw [← Except.ok.inj h]
      exact hk
  | put =>
    simp only [execute, bind_ok] at h
    obtain ⟨k,-,v,-,h⟩ := h
    rw [← Except.ok.inj h]
    exact Finmap.mem_insert.mpr (Or.inr hk)
  | append =>
    simp only [execute, bind_ok] at h
    obtain ⟨k,-,v,-,h⟩ := h
    rw [← Except.ok.inj h]
    exact Finmap.mem_insert.mpr (Or.inr hk)
  | other name hother =>
    rw [← Except.ok.inj h]
    exact hk

theorem perform_keeps (x : Store Values (String × Err) ℤ) (op : Op) (key : String)
    (hk : key ∈ x.state) : key ∈ (perform machine x op).state := by
  rw [perform]
  split_ifs
  · exact hk
  · show key ∈ (machine.execute x.state op).1
    cases he : execute x.state op with
    | error e => simpa [machine, he, Except.toOption] using hk
    | ok r =>
      rw [machine_execute he]
      exact execute_keeps x.state op r he key hk

/-- No key of a prefix is missing from a longer one. -/
theorem replayed_keys (s : List Op) (i j : ℕ) (hij : i ≤ j) (key : String)
    (hk : key ∈ (replayed s i).state) : key ∈ (replayed s j).state := by
  induction j, hij using Nat.le_induction with
  | base => exact hk
  | succ j _ ih =>
    cases hop : s[j]? with
    | none =>
      have hlen := List.getElem?_eq_none_iff.mp hop
      rw [replayed, List.take_of_length_le (by omega), ← List.take_of_length_le hlen]
      exact ih
    | some op =>
      rw [replayed_succ s j op hop]
      exact perform_keeps _ op key ih

theorem replayed_clients (s : List Op) (i j : ℕ) (hij : i ≤ j) (c : ℤ)
    (hc : (replayed s j).last c = none) : (replayed s i).last c = none := by
  cases hi : (replayed s i).last c with
  | none => rfl
  | some l =>
    obtain ⟨o,ho,-,k,hk,-⟩ := (latest machine ∅ (s.take i) c).source l hi
    have hmem : o ∈ s.take j :=
      (List.take_subset_take_left s hij) (List.mem_of_getElem? hk.1)
    exact absurd ho ((latest machine ∅ (s.take j) c).absent hc o hmem)

theorem union_covered {α : Type} [DecidableEq α] {β : Type} (a b : Finmap (fun _ : α => β))
    (h : ∀ c, c ∈ b → c ∈ a) : a ∪ b = a := by
  apply Finmap.ext_lookup
  intro c
  by_cases hc : c ∈ a
  · exact Finmap.lookup_union_left hc
  · have hb : c ∉ b := fun hb => hc (h c hb)
    rw [Finmap.lookup_union_right hc, Finmap.lookup_eq_none.mpr hb, Finmap.lookup_eq_none.mpr hc]

/-- Restoring the tables of a prefix over those of a shorter one. -/
theorem restore_tables (s : List Op) (i j : ℕ) (hij : i ≤ j) (kv taken : KVServer)
    (h : Tables kv (replayed s i)) (ht : Tables taken (replayed s j)) :
    taken.values ∪ kv.values = taken.values ∧
      taken.lastRequest ∪ kv.lastRequest = taken.lastRequest := by
  constructor
  · apply union_covered
    intro key hk
    rw [ht.values]
    rw [h.values] at hk
    exact replayed_keys s i j hij key hk
  · apply union_covered
    intro c hc
    by_contra hnot
    have hnone : (replayed s j).last c = none := by
      rw [ht.last, Finmap.lookup_eq_none.mpr hnot]
      rfl
    have hlast := (h.last c).symm.trans (replayed_clients s i j hij c hnone)
    rw [Option.map_eq_none_iff, Finmap.lookup_eq_none] at hlast
    exact hlast hc

section
variable (encode : Requests × Values → Bytes) (decode : Bytes → Option (Requests × Values))

/-- The tables of every prefix survive encoding, and no encoding is empty. -/
def RoundTrips (s : List Op) : Prop :=
  ∀ i kv, KvReplay.replay (s.take i) = .ok kv →
    decode (state encode kv) = some (kv.lastRequest, kv.values) ∧ state encode kv ≠ []

def Taken (s : List Op) (call : ℤ × Bytes) : Prop :=
  ∃ (i : ℕ) (kv : KVServer), call.1 = i ∧ i ≤ s.length ∧ KvReplay.replay (s.take i) = .ok kv ∧
    call.2 = state encode kv

/-- The index that `setState` is given is that of a command, which a message
with a snapshot does not have. -/
def restored (kv taken : KVServer) : KVServer :=
  { kv with
    lastRequest := taken.lastRequest ∪ kv.lastRequest
    values := taken.values ∪ kv.values
    lastExecutedIndex := 0
    lastSnapshotIndex := 0 }

theorem apply_restore (kv taken : KVServer) (index term : ℕ) (hnew : kv.lastExecutedIndex < index)
    (hdecode : decode (state encode taken) = some (taken.lastRequest, taken.values))
    (hsome : state encode taken ≠ []) :
    apply decode kv (snapshotMessage index term (state encode taken)) =
      .ok (restored kv taken, 0) := by
  have hlen : ¬ (state encode taken).length < 1 := by
    have := List.length_pos_iff.mpr hsome
    omega
  simp only [apply, snapshotMessage, setState, if_true, if_neg hlen, hdecode, gt_iff_lt, hnew,
    Bool.true_eq_false, if_false]
  rfl

theorem apply_skip (kv : KVServer) (index term : ℕ) (bytes : Bytes)
    (hold : ¬ kv.lastExecutedIndex < index) :
    apply decode kv (snapshotMessage index term bytes) = .ok (kv, 0) := by
  simp only [apply, snapshotMessage, gt_iff_lt, hold, if_true, Bool.true_eq_false, if_false]

/-- Nothing that was delivered beyond the last execution and the last snapshot
changed the tables, and what the server has executed since its last restore is
beyond the last snapshot. -/
structure Exact (s : List Op) (kv : KVServer) (p : Position) : Prop where
  tables : Tables kv (replayed s p.delivered)
  within : p.delivered ≤ s.length
  previous : p.previous ≤ p.delivered
  snapshot : p.snapshot ≤ p.delivered
  executed : kv.lastExecutedIndex ≤ p.delivered
  settled : ∀ j : ℕ, kv.lastExecutedIndex ≤ j → p.snapshot ≤ j → j ≤ p.delivered →
    replayed s j = replayed s p.delivered
  pending : kv.lastExecutedIndex ≠ kv.lastSnapshotIndex →
    0 ≤ kv.lastExecutedIndex ∧ p.snapshot ≤ kv.lastExecutedIndex

theorem exact_start (s : List Op) : Exact s startKVServer origin where
  tables := ⟨rfl,fun c => by simp [origin, startKVServer, replayed]⟩
  within := Nat.zero_le _
  previous := le_rfl
  snapshot := by simp [origin]
  executed := by simp [origin, startKVServer]
  settled j _ _ hj := by rw [Nat.le_zero.mp hj]; rfl
  pending h := absurd rfl h

section
variable {encode} {s : List Op} {kv : KVServer} {p : Position} (h : Exact s kv p)
include h

/-- A command that is new follows all that was delivered. -/
theorem new_follows (op : Op) (hop : s[p.previous]? = some op)
    (hnew : ¬ Stale machine (replayed s p.delivered) op) : p.previous = p.delivered := by
  have hle := h.previous
  by_contra hne
  exact hnew (replayed_stale s p.previous p.delivered op hop (by omega))

/-- A command that is a duplicate changes nothing, delivered again or not. -/
theorem stale_replayed (op : Op) (hop : s[p.previous]? = some op)
    (hst : Stale machine (replayed s p.delivered) op) :
    replayed s (max p.delivered (p.previous + 1)) = replayed s p.delivered := by
  have hle := h.previous
  rcases Nat.lt_or_ge p.previous p.delivered with hlt | hge
  · rw [max_eq_left (by omega)]
  · have heq : p.previous = p.delivered := by omega
    rw [heq] at hop ⊢
    rw [max_eq_right (by omega), replayed_succ s _ op hop, perform, if_pos hst]

theorem command_runs (last : KVServer) (hs : KvReplay.replay s = .ok last) (op : Op)
    (hop : s[p.previous]? = some op) (index : ℤ) :
    ∃ kv', executeIfNew kv (message index op) = .ok kv' := by
  have hdup := is_duplicate_iff h.tables op
  by_cases hst : Stale machine (replayed s p.delivered) op
  · exact ⟨kv,by simp only [executeIfNew, message]; rw [if_pos (hdup.mpr hst)]⟩
  · have hprev := new_follows h op hop hst
    obtain ⟨kv',hkv',-⟩ := replay_take s last hs (p.delivered + 1)
    rw [hprev] at hop
    rw [List.take_add_one, hop] at hkv'
    obtain ⟨kv0,h0,he⟩ := replay_concat_ok _ op kv' hkv'
    obtain ⟨hvalues,hlast⟩ := tables_unique h.tables (replay_reached _ kv0 h0)
    simp only [executeIfNew, message] at he ⊢
    rw [hvalues, hlast]
    split_ifs at he ⊢ with hc
    · exact ⟨kv,rfl⟩
    · obtain ⟨r,hr,-⟩ := (bind_ok _ _ _).mp he
      exact ⟨_,by rw [hr]; rfl⟩

/-- A command that comes again is a duplicate, and any other one follows all
that was delivered. -/
theorem exact_command (op : Op) (hop : s[p.previous]? = some op) (kv' : KVServer) (n : ℤ)
    (ha : apply decode kv (message (p.previous + 1 : ℕ) op) = .ok (kv', n)) :
    Exact s kv' p.command := by
  rw [apply, if_neg (by simp [message]), bind_ok] at ha
  obtain ⟨kv1,he,ha⟩ := ha
  obtain ⟨rfl,-⟩ := Prod.mk.inj (Except.ok.inj ha)
  have hprev := h.previous
  have hsnap := h.snapshot
  have hexec := h.executed
  have hlen := (List.getElem?_eq_some_iff.mp hop).1
  obtain ⟨htables,hcase⟩ := execute_if_new_outcome h.tables op _ he
  rcases hcase with ⟨hst,rfl⟩ | ⟨hnew,hexecuted,hlast⟩
  · have hsame := stale_replayed h op hop hst
    exact
      { h with
        tables := by
          rw [Position.command, hsame]
          exact ⟨h.tables.values,h.tables.last⟩
        within := max_le h.within hlen
        previous := le_max_right _ _
        snapshot := by simp only [Position.command]; omega
        executed := by simp only [Position.command]; omega
        settled := fun j hj1 hj2 hj3 => by
          simp only [Position.command] at hj1 hj2 hj3 ⊢
          rw [hsame]
          rcases Nat.lt_or_ge p.delivered j with hlt | hge
          · rw [← hsame]
            congr 1
            omega
          · exact h.settled j hj1 hj2 hge }
  · have heq := new_follows h op hop hnew
    rw [heq] at hop hexecuted hlen
    rw [Position.command, heq, max_eq_right (by omega)]
    have hmax : kv1.lastExecutedIndex = (p.delivered + 1 : ℕ) := by
      rw [hexecuted]
      exact max_eq_left (by omega)
    rw [← replayed_succ s _ op hop] at htables
    exact
      { h with
        tables := ⟨htables.values,htables.last⟩
        within := hlen
        previous := le_rfl
        snapshot := by simp only; omega
        executed := hmax.le
        settled := fun j hj1 _ hj3 => by
          simp only at hj1 hj3 ⊢
          congr 1
          omega
        pending := fun _ => ⟨by simp only; omega,by simp only; omega⟩ }

/-- A snapshot beyond the last execution has the tables that the server
already has, or covers all their keys. -/
theorem exact_restored (index : ℕ) (hlow : p.snapshot < index) (hhigh : index ≤ s.length)
    (taken : KVServer) (ht : Tables taken (replayed s index))
    (hnew : kv.lastExecutedIndex < index) :
    Exact s (restored kv taken) (p.restore index) := by
  have htables : Tables (restored kv taken) (replayed s (max p.delivered index)) := by
    have hlong : Tables taken (replayed s (max p.delivered index)) := by
      rcases Nat.le_total index p.delivered with hle | hle
      · rw [max_eq_left hle, ← h.settled index hnew.le hlow.le hle]
        exact ht
      · rw [max_eq_right hle]
        exact ht
    obtain ⟨hvalues,hlast⟩ := restore_tables s _ _ (le_max_left p.delivered index) kv taken
      h.tables hlong
    constructor
    · exact hvalues.trans hlong.values
    · intro c
      rw [hlong.last, ← hlast]
      rfl
  exact
    { tables := htables
      within := max_le h.within hhigh
      previous := le_max_right _ _
      snapshot := by simp only [Position.restore]; omega
      executed := by simp only [restored, Position.restore]; omega
      settled := fun j _ hj2 hj3 => by
        simp only [Position.restore] at hj2 hj3 ⊢
        rcases Nat.le_total index p.delivered with hle | hle
        · rw [max_eq_left hle] at hj3 ⊢
          exact h.settled j (by omega) (by omega) hj3
        · rw [max_eq_right hle] at hj3 ⊢
          congr 1
          omega
      pending := fun hne => absurd rfl hne }

theorem exact_skipped (index : ℕ) (hlow : p.snapshot < index)
    (hold : ¬ kv.lastExecutedIndex < index) :
    Exact s kv (p.restore index) := by
  have hexec := h.executed
  have hmax : max p.delivered index = p.delivered := max_eq_left (by omega)
  rw [Position.restore, hmax]
  exact
    { h with
      previous := by simp only; omega
      snapshot := by simp only; omega
      settled := fun j hj1 _ hj3 => h.settled j hj1 (by omega) hj3
      pending := fun _ => ⟨by omega,by simp only; omega⟩ }

theorem exact_snapshot (hr : RoundTrips encode decode s) (index term : ℕ)
    (hlow : p.snapshot < index) (hhigh : index ≤ s.length) (taken : KVServer)
    (ht : KvReplay.replay (s.take index) = .ok taken) :
    ∃ kv' n, apply decode kv (snapshotMessage index term (state encode taken)) = .ok (kv', n) ∧
      Exact s kv' (p.restore index) := by
  by_cases hnew : kv.lastExecutedIndex < index
  · obtain ⟨hdecode,hsome⟩ := hr index taken ht
    exact ⟨_,_,apply_restore encode decode kv taken index term hnew hdecode hsome,
      exact_restored h index hlow hhigh taken (replay_reached _ taken ht) hnew⟩
  · exact ⟨_,_,apply_skip decode kv index term _ hnew,exact_skipped h index hlow hnew⟩

/-- What comes next on the channel keeps the tables exact. -/
theorem exact_deliver (hr : RoundTrips encode decode s) (e : Event) (m : ApplyMsg Op)
    (p' : Position) (hd : deliver encode s p e = some (m, p')) (kv' : KVServer) (n : ℤ)
    (ha : apply decode kv m = .ok (kv', n)) : Exact s kv' p' := by
  cases e with
  | command =>
    obtain ⟨op,hop,heq⟩ := Option.map_eq_some_iff.mp hd
    obtain ⟨rfl,rfl⟩ := Prod.mk.inj heq
    exact exact_command decode h op hop kv' n ha
  | snapshot index term =>
    simp only [deliver, Option.ite_none_right_eq_some, Option.map_eq_some_iff, to_option_some,
      Prod.mk.injEq] at hd
    obtain ⟨⟨hlow,hhigh⟩,taken,ht,rfl,rfl⟩ := hd
    obtain ⟨kv1,n1,ha1,hexact⟩ := exact_snapshot decode h hr index term hlow hhigh taken ht
    obtain ⟨rfl,-⟩ := Prod.mk.inj (Except.ok.inj (ha.symm.trans ha1))
    exact hexact
  | initSnapshot => cases hd

/-- What the polling loop hands to the instance is labelled with an index whose
tables are the current ones. -/
theorem exact_init_snapshot (last : KVServer) (hs : KvReplay.replay s = .ok last) (kv' : KVServer)
    (index : ℤ) (hi : initSnapshot kv = some (kv', index)) :
    Exact s kv' p ∧ Taken encode s (index, state encode kv') := by
  rw [initSnapshot] at hi
  split_ifs at hi with hne
  obtain ⟨rfl,rfl⟩ := Prod.mk.inj (Option.some.inj hi)
  have hexec := h.executed
  obtain ⟨hpos,hsnap⟩ := h.pending hne
  obtain ⟨e,he⟩ := Int.eq_ofNat_of_zero_le hpos
  have hwithin := h.within
  obtain ⟨kv0,h0,ht⟩ := replay_take s last hs e
  rw [h.settled e (by omega) (by omega) (by omega)] at ht
  obtain ⟨hvalues,hlast⟩ := tables_unique h.tables ht
  refine ⟨{ h with
    tables := ⟨h.tables.values,h.tables.last⟩
    pending := fun hc => absurd rfl hc },e,kv0,he,by omega,h0,?_⟩
  rw [state, state, ← hvalues, ← hlast]

/-- The counts of handlers and the polled term do not matter to the tables. -/
theorem exact_keeps (w : ℤ → ℤ) (t : ℕ) :
    Exact s { kv with nWaitingHandlers := w, raftT := t } p :=
  { h with tables := ⟨h.tables.values,h.tables.last⟩ }

end

theorem step_delivers (s : List Op) (x x' : Feed) (e : Event) (he : e ≠ .initSnapshot)
    (h : step encode decode s x e = some x') : ∃ m p kv n,
      deliver encode s x.toPosition e = some (m, p) ∧ apply decode x.kv m = .ok (kv, n) ∧
      x' = { x with toPosition := p, kv := kv } := by
  cases e with
  | command | snapshot =>
    simp only [step, Option.bind_eq_bind, Option.bind_eq_some_iff, to_option_some, Option.pure_def,
      Option.some.injEq] at h
    obtain ⟨⟨m,p⟩,hd,⟨kv,n⟩,ha,rfl⟩ := h
    exact ⟨m,p,kv,n,hd,ha,rfl⟩
  | initSnapshot => exact absurd rfl he

theorem exact_step (s : List Op) (last : KVServer) (hs : KvReplay.replay s = .ok last)
    (hr : RoundTrips encode decode s) (x : Feed) (e : Event) (x' : Feed)
    (h : Exact s x.kv x.toPosition ∧ ∀ call ∈ x.calls, Taken encode s call)
    (hx : step encode decode s x e = some x') :
    Exact s x'.kv x'.toPosition ∧ ∀ call ∈ x'.calls, Taken encode s call := by
  by_cases he : e = .initSnapshot
  · subst he
    rw [step] at hx
    cases hi : initSnapshot x.kv with
    | none =>
      rw [hi] at hx
      obtain rfl := Option.some.inj hx
      exact h
    | some r =>
      rw [hi] at hx
      obtain rfl := Option.some.inj hx
      obtain ⟨hexact,htaken⟩ := exact_init_snapshot h.1 last hs r.1 r.2 hi
      refine ⟨hexact,fun call hcall => ?_⟩
      rcases List.mem_append.mp hcall with hcall | hcall
      · exact h.2 call hcall
      · rw [List.mem_singleton.mp hcall]
        exact htaken
  · obtain ⟨m,p,kv,n,hd,ha,rfl⟩ := step_delivers encode decode s x x' e he hx
    exact ⟨exact_deliver decode h.1 hr e m p hd kv n ha,h.2⟩

/-- In every run of a server that is fed a sequence and snapshots of its
prefixes, the tables are those of the longest prefix that was delivered, every
snapshot that the server takes is the encoding of the tables of the prefix that
it is labelled with, and the server returns on every further message. -/
theorem snapshots_exact (s : List Op) (last : KVServer) (hs : KvReplay.replay s = .ok last)
    (hr : RoundTrips encode decode s) (es : List Event) (x : Feed)
    (h : exec (step encode decode s) start es = some x) :
    (∃ kv, KvReplay.replay (s.take x.delivered) = .ok kv ∧ x.kv.values = kv.values ∧
      x.kv.lastRequest = kv.lastRequest) ∧
    (∀ call ∈ x.calls, Taken encode s call) ∧
    (x.previous < s.length → ∃ x', step encode decode s x .command = some x') ∧
    ∀ index term : ℕ, x.snapshot < index → index ≤ s.length →
      ∃ x', step encode decode s x (.snapshot index term) = some x' := by
  obtain ⟨hx,hcalls⟩ := exec_always _ _ (exact_step encode decode s last hs hr) es start x
    ⟨exact_start s,fun call hcall => by simp [start] at hcall⟩ h
  refine ⟨?_,hcalls,fun hlen => ?_,fun index term hlow hhigh => ?_⟩
  · obtain ⟨kv,hkv,ht⟩ := replay_take s last hs x.delivered
    exact ⟨kv,hkv,tables_unique hx.tables ht⟩
  · have hop := List.getElem?_eq_getElem hlen
    obtain ⟨kv,hkv⟩ := command_runs hx last hs _ hop (x.previous + 1 : ℕ)
    have ha : (apply decode x.kv (message (x.previous + 1 : ℕ) s[x.previous])).toOption.isSome := by
      rw [apply, if_neg (by simp [message]), hkv]
      rfl
    obtain ⟨r,hr⟩ := Option.isSome_iff_exists.mp ha
    simp only [step, deliver, hop, Option.map_some, Option.bind_eq_bind, Option.bind_some, hr]
    exact ⟨_,rfl⟩
  · obtain ⟨taken,ht,-⟩ := replay_take s last hs index
    obtain ⟨kv,n,ha,-⟩ := exact_snapshot decode hx hr index term hlow hhigh taken ht
    simp only [step, deliver, if_pos (And.intro hlow hhigh), ht, Except.toOption, Option.map_some,
      Option.bind_eq_bind, Option.bind_some, ha]
    exact ⟨_,rfl⟩

end

/-- One operation of each of two clients. -/
def twoClients : List Op := [⟨.put,["k", "a"],1,0⟩,⟨.append,["k", "b"],2,0⟩]

/-- A prefix of these is known from the number of clients in its tables. -/
def countClients : Requests × Values → Bytes := fun t => List.replicate (t.1.keys.card + 1) 0

def lookUpPrefix : Bytes → Option (Requests × Values) := fun b =>
  (KvReplay.replay (twoClients.take (b.length - 1))).toOption.map
    (fun kv => (kv.lastRequest, kv.values))

theorem two_clients_round_trip : RoundTrips countClients lookUpPrefix twoClients := by
  have hall : ∀ i : Fin 3, ∀ kv ∈ (KvReplay.replay (twoClients.take i)).toOption,
      lookUpPrefix (state countClients kv) = some (kv.lastRequest, kv.values) ∧
        state countClients kv ≠ [] := by decide +kernel
  intro i kv h
  rw [List.take_eq_take_min] at h
  exact hall ⟨_,Nat.lt_succ_of_le (Nat.min_le_right i 2)⟩ kv ((to_option_some _ _).mpr h)

/-- The server takes a snapshot of both operations. Then one of the first
arrives, and the second operation comes again. -/
def redelivered : List Event :=
  [.command, .command, .initSnapshot, .snapshot 1 1, .command]

theorem snapshots_exact_redelivered : ∃ last x,
    KvReplay.replay twoClients = .ok last ∧
    exec (step countClients lookUpPrefix twoClients) start redelivered = some x ∧
    x.delivered = 2 ∧ x.previous = 2 ∧ x.calls = [(2, [0,0,0])] ∧
    (∃ kv, KvReplay.replay (twoClients.take x.delivered) = .ok kv ∧ x.kv.values = kv.values ∧
      x.kv.lastRequest = kv.lastRequest) ∧
    ∀ call ∈ x.calls, Taken countClients twoClients call := by
  have hall := snapshots_exact countClients lookUpPrefix twoClients _ rfl two_clients_round_trip
    redelivered _ rfl
  exact ⟨_,_,rfl,rfl,by decide +kernel,by decide +kernel,by decide +kernel,hall.1,hall.2.1⟩

end Mitdist.KvSnapshots
