import Mitdist.KvServer
import Mitdist.Sessions

/-!
# Replaying operations against a server's tables

The tables that a server reaches on a sequence of operations are those of the
session machine whose requests are operations: a duplicate is a stale request,
and executing one that is new is performing it.
-/

set_option autoImplicit false

namespace Mitdist.KvReplay
open Mitdist.RaftPeer Mitdist.RaftOutcomes Mitdist.KvServer Mitdist.Sessions

def message (index : ℤ) (op : Op) : ApplyMsg Op :=
  { commandValid := true, command := some op, commandIndex := index }

def executeAll (kv : KVServer) (index : ℤ) : List Op → Except Fault KVServer
  | [] => .ok kv
  | op::ops => do
    let kv ← executeIfNew kv (message index op)
    executeAll kv (index+1) ops

/-- A new server that is given the operations from index one on. -/
def replay (ops : List Op) : Except Fault KVServer := executeAll startKVServer 1 ops

/-- The machine of the operations. It keeps the state where `execute` faults. -/
def machine : Machine Values Op (String × Err) ℤ where
  execute values op := ((execute values op).toOption).getD (values, "", .unset)
  client op := op.clientId
  number op := op.requestNumber

structure Tables (kv : KVServer) (x : Store Values (String × Err) ℤ) : Prop where
  values : kv.values = x.state
  last : ∀ c, x.last c =
    (kv.lastRequest.lookup c).map (fun r => (r.requestNumber, r.result, r.error))

@[simp]
theorem machine_client (op : Op) : machine.client op = op.clientId := rfl

@[simp]
theorem machine_number (op : Op) : machine.number op = op.requestNumber := rfl

theorem machine_execute {values : Values} {op : Op} {r : Values × String × Err}
    (h : execute values op = .ok r) : machine.execute values op = r := by
  simp [machine, h, Except.toOption]

def Executes (op : Op) : Prop := ∀ values, ∃ r, execute values op = .ok r

theorem read_executes (key : String) (rest : List String) (c n : ℤ) :
    Executes ⟨.get,key::rest,c,n⟩ := by
  intro values
  have hkey : load (key::rest) 0 = .ok key := rfl
  simp only [execute, hkey, ok_bind]
  cases values.lookup key with
  | none => exact ⟨_,rfl⟩
  | some v => exact ⟨_,rfl⟩

theorem get_executes (args : GetArgs) : Executes args.toOperation := read_executes _ [] _ _

theorem put_append_executes (args : PutAppendArgs) : Executes args.toOperation := by
  obtain ⟨c,n,key,value,op⟩ := args
  cases op with
  | get => exact read_executes key [value] c n
  | put => exact fun values => ⟨_,rfl⟩
  | append => exact fun values => ⟨_,rfl⟩
  | other name h => exact fun values => ⟨_,rfl⟩

section
variable {kv kv' : KVServer} {x : Store Values (String × Err) ℤ}

theorem is_duplicate_iff (h : Tables kv x) (op : Op) :
    isDuplicate kv.lastRequest op = true ↔ Stale machine x op := by
  simp only [isDuplicate, Stale, machine_client, machine_number, h.last]
  cases kv.lastRequest.lookup op.clientId <;> simp

theorem tables_unique (h : Tables kv x) (h' : Tables kv' x) :
    kv.values = kv'.values ∧ kv.lastRequest = kv'.lastRequest := by
  refine ⟨h.values.trans h'.values.symm,Finmap.ext_lookup (fun c => ?_)⟩
  have hc := (h.last c).symm.trans (h'.last c)
  refine Option.map_injective ?_ hc
  rintro ⟨n,r,e⟩ ⟨n',r',e'⟩ heq
  simpa using heq

/-- A duplicate changes nothing, and executing an operation that is new
performs it. -/
theorem execute_if_new_outcome (h : Tables kv x) (op : Op) (index : ℤ)
    (he : executeIfNew kv (message index op) = .ok kv') :
    Tables kv' (perform machine x op) ∧ (Stale machine x op ∧ kv' = kv ∨
      ¬ Stale machine x op ∧ kv'.lastExecutedIndex = max index kv.lastExecutedIndex ∧
        kv'.lastSnapshotIndex = kv.lastSnapshotIndex) := by
  have hdup := is_duplicate_iff h op
  simp only [executeIfNew, message] at he
  rw [perform]
  by_cases hs : Stale machine x op
  · rw [if_pos (hdup.mpr hs)] at he
    obtain rfl := Except.ok.inj he
    rw [if_pos hs]
    exact ⟨h,Or.inl ⟨hs,rfl⟩⟩
  · rw [if_neg (fun hd => hs (hdup.mp hd)), bind_ok] at he
    obtain ⟨⟨values,r,e⟩,hr,he⟩ := he
    obtain rfl := Except.ok.inj he
    rw [if_neg hs]
    refine ⟨⟨?_,fun c => ?_⟩,Or.inr ⟨hs,rfl,rfl⟩⟩
    · simp [← h.values, machine_execute hr]
    · by_cases hc : c = op.clientId
      · subst hc
        simp [← h.values, machine_execute hr]
      · simp [Function.update_of_ne hc, Finmap.lookup_insert_of_ne _ hc, h.last]

theorem execute_if_new_tables (h : Tables kv x) (op : Op) (he : Executes op) (index : ℤ) :
    ∃ kv', executeIfNew kv (message index op) = .ok kv' ∧ Tables kv' (perform machine x op) := by
  have hruns : ∃ kv', executeIfNew kv (message index op) = .ok kv' := by
    simp only [executeIfNew, message]
    split_ifs
    · exact ⟨kv,rfl⟩
    · obtain ⟨r,hr⟩ := he kv.values
      exact ⟨_,by rw [hr]; rfl⟩
  obtain ⟨kv',hkv⟩ := hruns
  exact ⟨kv',hkv,(execute_if_new_outcome h op index hkv).1⟩

theorem apply_tables (decode : Bytes → Option (Requests × Values)) (h : Tables kv x) (op : Op)
    (he : Executes op) (index n : ℤ) (ha : apply decode kv (message index op) = .ok (kv', n)) :
    Tables kv' (perform machine x op) ∧ kv'.lastApplyMsg = message index op := by
  obtain ⟨kv1,h1,ht⟩ := execute_if_new_tables h op he index
  rw [apply, if_neg (by simp [message]), h1] at ha
  obtain ⟨rfl,-⟩ := Prod.mk.inj (Except.ok.inj ha)
  exact ⟨⟨ht.values,ht.last⟩,rfl⟩

end

theorem execute_all_concat (kv : KVServer) (index : ℤ) (ops : List Op) (op : Op) :
    executeAll kv index (ops ++ [op]) =
      (executeAll kv index ops).bind
        (fun kv => executeIfNew kv (message (index + ops.length) op)) := by
  induction ops generalizing kv index with
  | nil =>
    simp only [List.nil_append, executeAll, List.length_nil, Int.ofNat_zero, Int.add_zero,
      Except.bind]
    cases executeIfNew kv (message index op) <;> rfl
  | cons o ops ih =>
    simp only [List.cons_append, executeAll, List.length_cons]
    cases executeIfNew kv (message index o) with
    | error e => rfl
    | ok kv1 =>
      have hindex : index + 1 + (ops.length : ℤ) = index + (ops.length + 1 : ℕ) := by omega
      rw [ok_bind, ok_bind, ih, hindex]

theorem replay_tables (ops : List Op) (h : ∀ op ∈ ops, Executes op) :
    ∃ kv, replay ops = .ok kv ∧ Tables kv (Sessions.replay machine ∅ ops) := by
  induction ops using List.reverseRecOn with
  | nil => exact ⟨_,rfl,rfl,fun c => by simp [startKVServer]⟩
  | append_singleton ops op ih =>
    obtain ⟨kv,hkv,ht⟩ := ih (fun o ho => h o (List.mem_append_left _ ho))
    rw [replay, execute_all_concat, ← replay, hkv, replay_concat]
    exact execute_if_new_tables ht op (h op (by simp)) _

end Mitdist.KvReplay
