import Mitdist.MapReduce

/-!
# What a map task writes

An encoder of a partition is at the position after the pairs of that partition
that were written, so each pair is written where it belongs in the sequence of
all pairs of its task and partition. Whoever writes to a file of that task
writes records of the same sequence.
-/

set_option autoImplicit false

namespace Mitdist.MapOutput
open Mitdist.RecordFile Mitdist.MapReduce

/-- The pairs of one partition. -/
def part (nReduce : ℕ) (kvs : List KeyValue) (p : ℕ) : List KeyValue :=
  kvs.filter (fun kv => ihash kv.key % nReduce = p)

theorem part_append (nReduce : ℕ) (kvs kvs' : List KeyValue) (p : ℕ) :
    part nReduce (kvs ++ kvs') p = part nReduce kvs p ++ part nReduce kvs' p :=
  List.filter_append kvs kvs'

theorem part_cons_self (nReduce : ℕ) (kv : KeyValue) (kvs : List KeyValue) :
    part nReduce (kv::kvs) (ihash kv.key % nReduce) =
      kv :: part nReduce kvs (ihash kv.key % nReduce) := by
  simp [part]

theorem part_cons_other (nReduce : ℕ) (kv : KeyValue) (kvs : List KeyValue) (p : ℕ)
    (h : p ≠ ihash kv.key % nReduce) : part nReduce (kv::kvs) p = part nReduce kvs p := by
  simp [part, Ne.symm h]

/-- The file of a task and partition has the first `n` records of the sequence. -/
def Filled (full : List KeyValue) (n : ℕ) (fs : Files) (i p : ℕ) : Prop :=
  ∃ cells, fs.intermediate (i, p) = some cells ∧ Written full n cells

theorem filled_encode (full : List KeyValue) (m : ℕ) (fs : Files) (i p i' p' pos : ℕ)
    (kv : KeyValue) (hkv : i' = i → p' = p → full[pos]? = some kv) (h : Filled full m fs i p) :
    Filled full m (encodeAt fs i' p' pos kv) i p := by
  obtain ⟨cells,hc,hw⟩ := h
  by_cases hq : i' = i ∧ p' = p
  · obtain ⟨rfl,rfl⟩ := hq
    exact ⟨writeAt cells pos kv,by simp [encodeAt, hc],
      written_write full cells pos m kv (hkv rfl rfl) hw⟩
  · have hne : (i,p) ≠ (i',p') := fun heq => hq ⟨(Prod.mk.inj heq).1.symm,(Prod.mk.inj heq).2.symm⟩
    exact ⟨cells,by simpa [encodeAt, Function.update_of_ne hne] using hc,hw⟩

theorem filled_encode_next (full : List KeyValue) (fs : Files) (i p pos : ℕ) (kv : KeyValue)
    (hkv : full[pos]? = some kv) (h : Filled full pos fs i p) :
    Filled full (pos+1) (encodeAt fs i p pos kv) i p := by
  obtain ⟨cells,hc,hw⟩ := h
  exact ⟨writeAt cells pos kv,by simp [encodeAt, hc],written_next full cells pos kv hkv hw⟩

theorem filled_create (full : List KeyValue) (e : Encoder) (fs : Files) :
    Filled full 0 (createNext e fs).2 e.taskId e.mapOutSplit.length :=
  ⟨[],by simp [createNext],written_empty full⟩

theorem filled_create_other (full : List KeyValue) (m : ℕ) (e : Encoder) (fs : Files) (i p : ℕ)
    (hne : ¬ (i = e.taskId ∧ p = e.mapOutSplit.length)) (h : Filled full m fs i p) :
    Filled full m (createNext e fs).2 i p := by
  obtain ⟨cells,hc,hw⟩ := h
  have hq : (i,p) ≠ (e.taskId,e.mapOutSplit.length) := fun heq => hne (Prod.mk.inj heq)
  exact ⟨cells,by simpa [createNext, Function.update_of_ne hq] using hc,hw⟩

/-- The encoders of a map task whose pairs are `all`, with `rest` still to be
written. -/
structure Progress (all rest : List KeyValue) (e : Encoder) : Prop where
  opened : e.mapOutSplit.length ≤ e.nReduce
  written : ∃ done, all = done ++ rest ∧ (e.mapOutSplit.length < e.nReduce → done = []) ∧
    ∀ (p pos : ℕ), e.mapOutSplit[p]? = some pos → pos = (part e.nReduce done p).length

theorem progress_begin (all : List KeyValue) (i n : ℕ) : Progress all all ⟨i,n,[]⟩ := by
  constructor
  · exact Nat.zero_le _
  · exact ⟨[],rfl,fun _ => rfl,by simp⟩

theorem progress_create (all rest : List KeyValue) (e : Encoder) (fs : Files)
    (hlt : e.mapOutSplit.length < e.nReduce) (h : Progress all rest e) :
    Progress all rest (createNext e fs).1 := by
  obtain ⟨done,hall,hfirst,hpos⟩ := h.written
  obtain rfl := hfirst hlt
  constructor
  · show (e.mapOutSplit ++ [0]).length ≤ e.nReduce
    rw [List.length_append]
    exact hlt
  · refine ⟨[],hall,fun _ => rfl,?_⟩
    intro p pos hp
    rcases List.mem_append.mp (List.mem_of_getElem? hp) with hm | hm
    · obtain ⟨q,hq⟩ := List.mem_iff_getElem?.mp hm
      exact hpos q pos hq
    · simpa [part] using hm

theorem encode_one_outcome (e e' : Encoder) (fs fs' : Files) (kv : KeyValue)
    (h : encodeOne e fs kv = some (e', fs')) :
    ∃ pos, e.mapOutSplit[ihash kv.key % e.nReduce]? = some pos ∧
      e' = { e with mapOutSplit := e.mapOutSplit.set (ihash kv.key % e.nReduce) (pos+1) } ∧
      fs' = encodeAt fs e.taskId (ihash kv.key % e.nReduce) pos kv := by
  obtain ⟨pos,hpos,heq⟩ := Option.map_eq_some_iff.mp h
  obtain ⟨rfl,rfl⟩ := Prod.mk.inj heq
  exact ⟨pos,hpos,rfl,rfl⟩

theorem encode_one_total (e : Encoder) (fs : Files) (kv : KeyValue) (hn : 1 ≤ e.nReduce)
    (ho : e.mapOutSplit.length = e.nReduce) : ∃ r, encodeOne e fs kv = some r := by
  have hlt : ihash kv.key % e.nReduce < e.mapOutSplit.length := by
    rw [ho]
    exact Nat.mod_lt _ hn
  exact ⟨_,by rw [encodeOne, List.getElem?_eq_getElem hlt, Option.map_some]⟩

/-- A pair is written where it belongs. -/
theorem record_position (all rest : List KeyValue) (kv : KeyValue) (e : Encoder) (pos : ℕ)
    (h : Progress all (kv::rest) e)
    (hpos : e.mapOutSplit[ihash kv.key % e.nReduce]? = some pos) :
    (part e.nReduce all (ihash kv.key % e.nReduce))[pos]? = some kv := by
  obtain ⟨done,rfl,-,hw⟩ := h.written
  rw [part_append, part_cons_self, hw _ pos hpos]
  simp

theorem progress_encode (all rest : List KeyValue) (kv : KeyValue) (e e' : Encoder)
    (fs fs' : Files) (ho : e.mapOutSplit.length = e.nReduce) (h : Progress all (kv::rest) e)
    (hs : encodeOne e fs kv = some (e', fs')) : Progress all rest e' := by
  obtain ⟨pos,hpos,rfl,-⟩ := encode_one_outcome e e' fs fs' kv hs
  obtain ⟨done,hall,-,hw⟩ := h.written
  constructor
  · simp [ho]
  · refine ⟨done ++ [kv],by simp [hall],by simp [ho],?_⟩
    intro p q hq
    rw [part_append, List.length_append]
    by_cases hp : p = ihash kv.key % e.nReduce
    · subst hp
      rw [List.getElem?_set_self (List.getElem?_eq_some_iff.mp hpos).1] at hq
      rw [part_cons_self, ← hw _ pos hpos, ← Option.some.inj hq]
      simp [part]
    · rw [List.getElem?_set_ne (Ne.symm hp)] at hq
      rw [part_cons_other _ _ _ _ hp, hw p q hq]
      simp [part]

/-- The files that a map task has open have what it wrote to them. -/
def Holds (all : List KeyValue) (e : Encoder) (fs : Files) : Prop :=
  ∀ (p pos : ℕ), e.mapOutSplit[p]? = some pos →
    Filled (part e.nReduce all p) pos fs e.taskId p

theorem holds_create (all : List KeyValue) (e : Encoder) (fs : Files) (h : Holds all e fs) :
    Holds all (createNext e fs).1 (createNext e fs).2 := by
  intro p pos hp
  have hlen := (List.getElem?_eq_some_iff.mp hp).1
  by_cases hlast : p = e.mapOutSplit.length
  · subst hlast
    have hzero : pos = 0 := by simpa [createNext] using hp.symm
    rw [hzero]
    exact filled_create _ e fs
  · have hlt : p < e.mapOutSplit.length := by
      simp only [createNext, List.length_append, List.length_singleton] at hlen
      omega
    have hold : e.mapOutSplit[p]? = some pos := by
      rw [← hp]
      exact (List.getElem?_append_left hlt).symm
    exact filled_create_other _ pos e fs e.taskId p (fun hc => hlast hc.2) (h p pos hold)

theorem holds_encode (all rest : List KeyValue) (kv : KeyValue) (e e' : Encoder) (fs fs' : Files)
    (hp : Progress all (kv::rest) e) (h : Holds all e fs)
    (hs : encodeOne e fs kv = some (e', fs')) : Holds all e' fs' := by
  obtain ⟨pos,hpos,rfl,rfl⟩ := encode_one_outcome e e' fs fs' kv hs
  have hkv := record_position all rest kv e pos hp hpos
  intro p q hq
  by_cases hpart : p = ihash kv.key % e.nReduce
  · subst hpart
    rw [List.getElem?_set_self (List.getElem?_eq_some_iff.mp hpos).1] at hq
    rw [← Option.some.inj hq]
    exact filled_encode_next _ fs e.taskId _ pos kv hkv (h _ pos hpos)
  · rw [List.getElem?_set_ne (Ne.symm hpart)] at hq
    exact filled_encode _ q fs e.taskId p e.taskId _ pos kv
      (fun _ heq => absurd heq.symm hpart) (h p q hq)

/-- When nothing is left to write, the files have all pairs of the task. -/
theorem holds_complete (all : List KeyValue) (e : Encoder) (fs : Files)
    (ho : e.mapOutSplit.length = e.nReduce) (hp : Progress all [] e) (h : Holds all e fs) :
    ∀ p < e.nReduce, Filled (part e.nReduce all p) (part e.nReduce all p).length fs e.taskId p := by
  intro p hlt
  obtain ⟨done,hall,-,hw⟩ := hp.written
  rw [List.append_nil] at hall
  have hget := List.getElem?_eq_getElem (show p < e.mapOutSplit.length by omega)
  have hlen := hw p _ hget
  have hfilled := h p _ hget
  rw [hlen, ← hall] at hfilled
  exact hfilled

/-- Only the files of one map task differ. -/
def OnlyTask (i : ℕ) (fs fs' : Files) : Prop :=
  (∀ k p, k ≠ i → fs'.intermediate (k, p) = fs.intermediate (k, p)) ∧ fs'.out = fs.out

theorem only_task_refl (i : ℕ) (fs : Files) : OnlyTask i fs fs := ⟨fun _ _ _ => rfl,rfl⟩

theorem only_task_trans {i : ℕ} {fs fs1 fs2 : Files} (h : OnlyTask i fs fs1)
    (h' : OnlyTask i fs1 fs2) : OnlyTask i fs fs2 := by
  constructor
  · intro k p hk
    exact (h'.1 k p hk).trans (h.1 k p hk)
  · exact h'.2.trans h.2

theorem create_only_task (e : Encoder) (fs : Files) : OnlyTask e.taskId fs (createNext e fs).2 := by
  constructor
  · intro k p hk
    exact Function.update_of_ne (fun heq => hk (Prod.mk.inj heq).1) _ _
  · rfl

/-- The state of the loops of encodeKV for map task `i`. -/
structure Encodes (i n : ℕ) (all rest : List KeyValue) (e : Encoder) (fs : Files) : Prop where
  task : e.taskId = i
  reduces : e.nReduce = n
  progress : Progress all rest e
  holds : Holds all e fs

theorem encodes_begin (i n : ℕ) (all : List KeyValue) (fs : Files) :
    Encodes i n all all ⟨i,n,[]⟩ fs := by
  constructor
  · rfl
  · rfl
  · exact progress_begin all i n
  · intro p pos hp
    simp at hp

theorem create_next_encodes (i n : ℕ) (all rest : List KeyValue) (e : Encoder) (fs : Files)
    (hlt : e.mapOutSplit.length < n) (h : Encodes i n all rest e fs) :
    Encodes i n all rest (createNext e fs).1 (createNext e fs).2 := by
  constructor
  · exact h.task
  · exact h.reduces
  · exact progress_create all rest e fs (by rw [h.reduces]; exact hlt) h.progress
  · exact holds_create all e fs h.holds

theorem encode_one_encodes (i n : ℕ) (all rest : List KeyValue) (kv : KeyValue) (e e' : Encoder)
    (fs fs' : Files) (ho : e.mapOutSplit.length = n) (h : Encodes i n all (kv::rest) e fs)
    (hs : encodeOne e fs kv = some (e', fs')) :
    Encodes i n all rest e' fs' ∧ e'.mapOutSplit.length = n := by
  have hopen : e.mapOutSplit.length = e.nReduce := ho.trans h.reduces.symm
  have hprogress := progress_encode all rest kv e e' fs fs' hopen h.progress hs
  have hholds := holds_encode all rest kv e e' fs fs' h.progress h.holds hs
  obtain ⟨pos,-,rfl,rfl⟩ := encode_one_outcome e e' fs fs' kv hs
  exact ⟨⟨h.task,h.reduces,hprogress,hholds⟩,by simpa using ho⟩

theorem encode_one_only_task (e e' : Encoder) (fs fs' : Files) (kv : KeyValue)
    (hs : encodeOne e fs kv = some (e', fs')) : OnlyTask e.taskId fs fs' := by
  obtain ⟨pos,-,-,rfl⟩ := encode_one_outcome e e' fs fs' kv hs
  constructor
  · intro k q hk
    exact Function.update_of_ne (fun heq => hk (Prod.mk.inj heq).1) _ _
  · rfl

theorem create_loop_encodes (i n : ℕ) (all rest : List KeyValue) (k : ℕ) (e : Encoder)
    (fs : Files) (hk : e.mapOutSplit.length + k = n) (h : Encodes i n all rest e fs) :
    Encodes i n all rest (createLoop k e fs).1 (createLoop k e fs).2 ∧
      (createLoop k e fs).1.mapOutSplit.length = n ∧ OnlyTask i fs (createLoop k e fs).2 := by
  induction k generalizing e fs with
  | zero => exact ⟨h,hk,only_task_refl i fs⟩
  | succ k ih =>
    have hnext := create_next_encodes i n all rest e fs (by omega) h
    have hlen : (createNext e fs).1.mapOutSplit.length + k = n := by
      simp only [createNext, List.length_append, List.length_singleton]
      omega
    obtain ⟨hend,hfull,honly⟩ := ih _ _ hlen hnext
    have hstep := create_only_task e fs
    rw [h.task] at hstep
    exact ⟨hend,hfull,only_task_trans hstep honly⟩

theorem encode_loop_encodes (i n : ℕ) (hn : 1 ≤ n) (all kvs : List KeyValue) (e : Encoder)
    (fs : Files) (ho : e.mapOutSplit.length = n) (h : Encodes i n all kvs e fs) :
    ∃ e' fs', encodeLoop kvs e fs = some (e', fs') ∧ Encodes i n all [] e' fs' ∧
      e'.mapOutSplit.length = n ∧ OnlyTask i fs fs' := by
  induction kvs generalizing e fs with
  | nil => exact ⟨e,fs,rfl,h,ho,only_task_refl i fs⟩
  | cons kv kvs ih =>
    obtain ⟨⟨e1,fs1⟩,hone⟩ := encode_one_total e fs kv (by rw [h.reduces]; exact hn)
      (ho.trans h.reduces.symm)
    obtain ⟨hnext,hopen⟩ := encode_one_encodes i n all kvs kv e e1 fs fs1 ho h hone
    obtain ⟨e',fs',hloop,hend,hfull,honly⟩ := ih e1 fs1 hopen hnext
    have hstep := encode_one_only_task e e1 fs fs1 kv hone
    rw [h.task] at hstep
    refine ⟨e',fs',?_,hend,hfull,only_task_trans hstep honly⟩
    rw [encodeLoop, hone, Option.bind_some]
    exact hloop

/-- A map task that is not disturbed leaves files with all its pairs. -/
theorem encode_kv_filled (fs : Files) (kvs : List KeyValue) (i n : ℕ) (hn : 1 ≤ n) :
    ∃ fs', encodeKV fs kvs i n = .ok fs' ∧ OnlyTask i fs fs' ∧
      ∀ p < n, Filled (part n kvs p) (part n kvs p).length fs' i p := by
  obtain ⟨hcreated,hopen,hfirst⟩ := create_loop_encodes i n kvs kvs n _ fs (by simp)
    (encodes_begin i n kvs fs)
  obtain ⟨e,fs',hloop,hend,hfull,hsecond⟩ := encode_loop_encodes i n hn kvs kvs _ _ hopen hcreated
  refine ⟨fs',by rw [encodeKV, hloop],only_task_trans hfirst hsecond,?_⟩
  have hcomplete := holds_complete kvs e fs' (hfull.trans hend.reduces.symm) hend.progress
    hend.holds
  rw [hend.task, hend.reduces] at hcomplete
  exact hcomplete

end Mitdist.MapOutput
