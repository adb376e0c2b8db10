import Mathlib.Data.List.Sort
import Mathlib.Data.String.Basic
import Mitdist.Grouping
import Mitdist.MapOutput

/-!
# Distributed and sequential MapReduce

Both programs print a grouping of the same pairs by key. The sequential one
groups all pairs, a reduce task groups the pairs of its partition. Both rely on
a sort that returns some permutation of the pairs ordered by key, so the loop
over the sorted pairs meets each key in one run.
-/

set_option autoImplicit false

namespace Mitdist.MapReduceEquivalence
open Mitdist.RecordFile Mitdist.MrCoordinator Mitdist.MapReduce Mitdist.MapOutput
open Mitdist.Grouping

/-- What is assumed of sort.Sort. -/
structure Sorter where
  run : List KeyValue → List KeyValue
  perm : ∀ kvs, (run kvs).Perm kvs
  sorted : ∀ kvs, (run kvs).Pairwise (fun a b => ¬ less b a)

theorem run_end_spec (kvs : List KeyValue) (key : String) (fuel j : ℕ) (hj : j ≤ kvs.length)
    (hfuel : kvs.length ≤ j + fuel) :
    j ≤ runEnd kvs key fuel j ∧ runEnd kvs key fuel j ≤ kvs.length ∧
      (∀ m, j ≤ m → m < runEnd kvs key fuel j → ∃ kv, kvs[m]? = some kv ∧ kv.key = key) ∧
      ∀ kv, kvs[runEnd kvs key fuel j]? = some kv → kv.key ≠ key := by
  induction fuel generalizing j with
  | zero =>
    have hend : kvs[j]? = none := List.getElem?_eq_none (by omega)
    refine ⟨le_refl j,hj,?_,?_⟩
    · intro m hm hlt
      simp only [runEnd] at hlt
      omega
    · intro kv hkv
      simp [runEnd, hend] at hkv
  | succ fuel ih =>
    cases hget : kvs[j]? with
    | none =>
      simp only [runEnd, hget]
      refine ⟨le_refl j,hj,?_,?_⟩
      · intro m hm hlt
        omega
      · simp
    | some kv =>
      have hlt := (List.getElem?_eq_some_iff.mp hget).1
      by_cases hkey : kv.key = key
      · obtain ⟨hle,hbound,hrun,hstop⟩ := ih (j+1) (by omega) (by omega)
        simp only [runEnd, hget, if_pos hkey]
        refine ⟨by omega,hbound,?_,hstop⟩
        intro m hm hmlt
        by_cases hmj : m = j
        · subst hmj
          exact ⟨kv,hget,hkey⟩
        · exact hrun m (by omega) hmlt
      · simp only [runEnd, hget, if_neg hkey]
        refine ⟨le_refl j,hj,?_,?_⟩
        · intro m hm hmlt
          omega
        · intro kv' hkv'
          rw [← Option.some.inj hkv']
          exact hkey

theorem sorted_between (kvs : List KeyValue) (hs : kvs.Pairwise (fun a b => ¬ less b a))
    (i j m : ℕ) (a b c : KeyValue) (hij : i < j) (hjm : j < m) (ha : kvs[i]? = some a)
    (hb : kvs[j]? = some b) (hc : kvs[m]? = some c) (heq : c.key = a.key) : b.key = a.key := by
  obtain ⟨hi,rfl⟩ := List.getElem?_eq_some_iff.mp ha
  obtain ⟨hj,rfl⟩ := List.getElem?_eq_some_iff.mp hb
  obtain ⟨hm,rfl⟩ := List.getElem?_eq_some_iff.mp hc
  have hab := List.pairwise_iff_getElem.mp hs i j hi hj hij
  have hbc := List.pairwise_iff_getElem.mp hs j m hj hm hjm
  simp only [less, decide_eq_true_eq, not_lt] at hab hbc
  rw [heq] at hbc
  exact le_antisymm hbc hab

/-- The key of a run does not occur behind the end of the run. -/
theorem run_end_rest (kvs : List KeyValue) (hs : kvs.Pairwise (fun a b => ¬ less b a)) (i j : ℕ)
    (kv : KeyValue) (hij : i < j) (hi : kvs[i]? = some kv)
    (hstop : ∀ b, kvs[j]? = some b → b.key ≠ kv.key) :
    kv.key ∉ (kvs.drop j).map KeyValue.key := by
  intro hmem
  obtain ⟨c,hc,hkey⟩ := List.mem_map.mp hmem
  obtain ⟨m,hm⟩ := List.mem_iff_getElem?.mp hc
  rw [List.getElem?_drop] at hm
  have hjlt : j < kvs.length := by
    have := (List.getElem?_eq_some_iff.mp hm).1
    omega
  have hj := List.getElem?_eq_getElem hjlt
  by_cases hzero : m = 0
  · subst hzero
    exact hstop c hm hkey
  · exact hstop _ hj (sorted_between kvs hs i j (j+m) kv _ c hij (by omega) hi hj hm hkey)

theorem drop_split (kvs : List KeyValue) (i j : ℕ) (hij : i ≤ j) :
    kvs.drop i = (kvs.take j).drop i ++ kvs.drop j := by
  have hsplit := List.take_append_drop (j-i) (kvs.drop i)
  rw [List.drop_drop, Nat.add_sub_cancel' hij, List.take_drop, Nat.add_sub_cancel' hij] at hsplit
  exact hsplit.symm

theorem reduce_loop_grouped (reducef : String → List String → String) (kvs : List KeyValue)
    (hs : kvs.Pairwise (fun a b => ¬ less b a)) (fuel i : ℕ) (hfuel : kvs.length ≤ i + fuel) :
    Grouped KeyValue.key KeyValue.value reducef (kvs.drop i) (reduceLoop reducef kvs fuel i) := by
  induction fuel generalizing i with
  | zero =>
    rw [List.drop_of_length_le (by omega)]
    exact grouped_nil
  | succ fuel ih =>
    cases hget : kvs[i]? with
    | none =>
      rw [List.drop_of_length_le (List.getElem?_eq_none_iff.mp hget)]
      simp only [reduceLoop, hget]
      exact grouped_nil
    | some kv =>
      have hlt := (List.getElem?_eq_some_iff.mp hget).1
      obtain ⟨hle,hbound,hrun,hstop⟩ :=
        run_end_spec kvs kv.key kvs.length (i+1) (by omega) (by omega)
      have hrest := ih (runEnd kvs kv.key kvs.length (i+1)) (by omega)
      simp only [reduceLoop, hget]
      generalize runEnd kvs kv.key kvs.length (i+1) = j at *
      rw [drop_split kvs i j (by omega)]
      apply grouped_run
      · apply List.ne_nil_of_length_pos
        rw [List.length_drop, List.length_take]
        omega
      · intro x hx
        obtain ⟨m,hm⟩ := List.mem_iff_getElem?.mp hx
        rw [List.getElem?_drop, List.getElem?_take] at hm
        split_ifs at hm with hmj
        by_cases hzero : m = 0
        · subst hzero
          rw [Nat.add_zero, hget] at hm
          rw [← Option.some.inj hm]
        · obtain ⟨y,hy,hkey⟩ := hrun (i+m) (by omega) hmj
          rw [hy] at hm
          rw [← Option.some.inj hm, hkey]
      · exact run_end_rest kvs hs i j kv (by omega) hget hstop
      · exact hrest

theorem reduce_sorted_grouped (reducef : String → List String → String)
    (hf : OrderInsensitive reducef) (sort : Sorter) (kvs : List KeyValue) :
    Grouped KeyValue.key KeyValue.value reducef kvs (reduceSorted reducef (sort.run kvs)) := by
  have hloop := reduce_loop_grouped reducef (sort.run kvs) (sort.sorted kvs)
    (sort.run kvs).length 0 (by omega)
  rw [List.drop_zero] at hloop
  exact grouped_perm hf (sort.perm kvs) hloop

section Tasks
variable (contents : String → Except FileError String) (sort : Sorter)
variable (mapf : String → String → List KeyValue) (reducef : String → List String → String)
variable (files : List String) (nReduce : ℕ)

/-- The tasks that the coordinator hands out for these files. -/
def mapTask (i : ℕ) : Task := .mapTaskReply (files.getD i "") nReduce i

def reduceTask (p : ℕ) : Task := .reduceTaskReply p files.length

/-- The pairs that the map function emits for a file. -/
def Emits (filename : String) (kvs : List KeyValue) : Prop :=
  ∃ content, readInput contents filename = .ok content ∧ mapf filename content = kvs

theorem collect_outcome (acc all : List KeyValue) (h : collect contents mapf files acc = .ok all) :
    ∃ outs, List.Forall₂ (Emits contents mapf) files outs ∧ all = acc ++ outs.flatten := by
  induction files generalizing acc with
  | nil =>
    simp only [collect, Except.ok.injEq] at h
    exact ⟨[],.nil,by simp [h]⟩
  | cons f files ih =>
    cases hr : readInput contents f with
    | error msg => simp [collect, hr, bind, Except.bind] at h
    | ok content =>
      simp only [collect, hr, bind, Except.bind] at h
      obtain ⟨outs,houts,hall⟩ := ih _ h
      exact ⟨mapf f content :: outs,.cons ⟨content,hr,rfl⟩ houts,by simp [hall]⟩

theorem collect_total (acc : List KeyValue)
    (h : ∀ f ∈ files, ∃ content, readInput contents f = .ok content) :
    ∃ all, collect contents mapf files acc = .ok all := by
  induction files generalizing acc with
  | nil => exact ⟨acc,rfl⟩
  | cons f files ih =>
    obtain ⟨content,hr⟩ := h f (by simp)
    obtain ⟨all,hall⟩ := ih (acc ++ mapf f content) (fun g hg => h g (by simp [hg]))
    refine ⟨all,?_⟩
    simp only [collect, hr, bind, Except.bind]
    exact hall

theorem execute_tasks_append (fs : Files) (tasks tasks' : List Task) :
    executeTasks contents sort.run mapf reducef fs (tasks ++ tasks') =
      (executeTasks contents sort.run mapf reducef fs tasks).bind
        (fun fs' => executeTasks contents sort.run mapf reducef fs' tasks') := by
  induction tasks generalizing fs with
  | nil => rfl
  | cons task tasks ih =>
    simp only [List.cons_append, executeTasks, bind]
    cases executeTask contents sort.run mapf reducef fs task with
    | error msg => rfl
    | ok fs1 => exact ih fs1

/-- The files of map task `i` have all its pairs. -/
def Mapped (outs : List (List KeyValue)) (fs : Files) (i : ℕ) : Prop :=
  ∀ p < nReduce, Filled (part nReduce (outs.getD i []) p)
    (part nReduce (outs.getD i []) p).length fs i p

variable {contents mapf files nReduce}

theorem map_task_mapped {outs : List (List KeyValue)}
    (houts : List.Forall₂ (Emits contents mapf) files outs) (hn : 1 ≤ nReduce) (fs : Files) (i : ℕ)
    (hi : i < files.length) :
    ∃ fs', executeTask contents sort.run mapf reducef fs (mapTask files nReduce i) = .ok fs' ∧
      OnlyTask i fs fs' ∧ Mapped nReduce outs fs' i := by
  have hio : i < outs.length := houts.length_eq ▸ hi
  obtain ⟨content,hr,hkvs⟩ := houts.get hi hio
  obtain ⟨fs',hok,honly,hfilled⟩ := encode_kv_filled fs outs[i] i nReduce hn
  have hfile : files.getD i "" = files[i] := (List.getElem_eq_getD "").symm
  have hout : outs.getD i [] = outs[i] := (List.getElem_eq_getD []).symm
  refine ⟨fs',?_,honly,?_⟩
  · rw [mapTask, hfile, executeTask, mapFile]
    rw [List.get_eq_getElem] at hr hkvs
    rw [hr]
    show encodeKV fs (mapf files[i] content) i nReduce = .ok fs'
    rw [hkvs]
    exact hok
  · rw [Mapped, hout]
    exact hfilled

theorem mapped_only_task {outs : List (List KeyValue)} {fs fs' : Files} {i k : ℕ}
    (h : OnlyTask i fs fs') (hne : k ≠ i) (hk : Mapped nReduce outs fs k) :
    Mapped nReduce outs fs' k := by
  intro p hp
  obtain ⟨cells,hc,hw⟩ := hk p hp
  exact ⟨cells,(h.1 k p hne).trans hc,hw⟩

/-- Map tasks may be executed in any order, and more than once. -/
theorem map_tasks_mapped {outs : List (List KeyValue)}
    (houts : List.Forall₂ (Emits contents mapf) files outs) (hn : 1 ≤ nReduce) (fs : Files)
    (maps : List ℕ) (hm : ∀ i ∈ maps, i < files.length) :
    ∃ fs', executeTasks contents sort.run mapf reducef fs (maps.map (mapTask files nReduce)) =
        .ok fs' ∧ ∀ k, k ∈ maps ∨ Mapped nReduce outs fs k → Mapped nReduce outs fs' k := by
  induction maps generalizing fs with
  | nil =>
    refine ⟨fs,rfl,?_⟩
    intro k hk
    simpa using hk
  | cons i maps ih =>
    obtain ⟨fs1,hok,honly,hmapped⟩ :=
      map_task_mapped sort reducef houts hn fs i (hm i (by simp))
    obtain ⟨fs',hrest,hkeep⟩ := ih fs1 (fun k hk => hm k (by simp [hk]))
    refine ⟨fs',?_,?_⟩
    · rw [List.map_cons, executeTasks, hok]
      exact hrest
    · intro k hk
      apply hkeep
      by_cases hki : k = i
      · subst hki
        exact .inr hmapped
      · rcases hk with hk | hk
        · exact .inl (List.mem_of_ne_of_mem hki hk)
        · exact .inr (mapped_only_task honly hki hk)

theorem read_loop_mapped {outs : List (List KeyValue)} {fs : Files} {p : ℕ} (hp : p < nReduce)
    (k i : ℕ) (kva : List KeyValue)
    (h : ∀ m, i ≤ m → m < i + k → Mapped nReduce outs fs m) :
    readLoop fs p k i kva =
      .ok (kva ++ (List.range' i k).flatMap (fun m => part nReduce (outs.getD m []) p)) := by
  induction k generalizing i kva with
  | zero => simp [readLoop]
  | succ k ih =>
    obtain ⟨cells,hc,hw⟩ := h i (le_refl i) (by omega) p hp
    have hrest := ih (i+1) (kva ++ readAll cells) (fun m hm hlt => h m (by omega) (by omega))
    rw [readLoop, hc]
    show readLoop fs p k (i+1) (kva ++ readAll cells) = _
    rw [hrest, read_all_written _ cells hw, List.range'_succ, List.flatMap_cons,
      List.append_assoc]

/-- A reduce task reads the pairs of its partition. -/
theorem read_partition_mapped {outs : List (List KeyValue)} {fs : Files} {p : ℕ}
    (hp : p < nReduce) (h : ∀ i < outs.length, Mapped nReduce outs fs i) :
    readPartition fs p outs.length = .ok (part nReduce outs.flatten p) := by
  have hmap : (List.range outs.length).map (fun m => outs.getD m []) = outs := by
    apply List.ext_getElem
    · simp
    · intro m hm hm'
      simp [hm']
  have hflat : outs.flatten = (List.range outs.length).flatMap (fun m => outs.getD m []) := by
    rw [List.flatMap_def, hmap]
  rw [readPartition, read_loop_mapped hp outs.length 0 [] (fun m _ hm => h m (by omega)),
    List.nil_append, ← List.range_eq_range', hflat, part, List.filter_flatMap]
  rfl

/-- The lines of one partition. -/
def reduced (nReduce : ℕ) (outs : List (List KeyValue)) (p : ℕ) : List (String × String) :=
  reduceSorted reducef (sort.run (part nReduce outs.flatten p))

variable (contents mapf) in
theorem reduce_task_reduced {outs : List (List KeyValue)}
    (hlen : files.length = outs.length) {fs : Files} {p : ℕ} (hp : p < nReduce)
    (h : ∀ i < outs.length, Mapped nReduce outs fs i) :
    executeTask contents sort.run mapf reducef fs (reduceTask files p) =
      .ok { fs with
        out := Function.update fs.out p (some (reduced sort reducef nReduce outs p)) } := by
  rw [reduceTask, executeTask, reduce, hlen, read_partition_mapped hp h]
  rfl

variable (contents mapf) in
/-- So may reduce tasks, when all map tasks are done. -/
theorem reduce_tasks_reduced {outs : List (List KeyValue)}
    (hlen : files.length = outs.length) (fs : Files) (reduces : List ℕ)
    (hr : ∀ p ∈ reduces, p < nReduce) (h : ∀ i < outs.length, Mapped nReduce outs fs i) :
    ∃ fs', executeTasks contents sort.run mapf reducef fs (reduces.map (reduceTask files)) =
        .ok fs' ∧ ∀ p, p ∈ reduces ∨ fs.out p = some (reduced sort reducef nReduce outs p) →
          fs'.out p = some (reduced sort reducef nReduce outs p) := by
  induction reduces generalizing fs with
  | nil =>
    refine ⟨fs,rfl,?_⟩
    intro p hp
    simpa using hp
  | cons q reduces ih =>
    have hstep := reduce_task_reduced contents sort mapf reducef hlen (hr q (by simp)) h
    obtain ⟨fs',hrest,hkeep⟩ := ih { fs with
        out := Function.update fs.out q (some (reduced sort reducef nReduce outs q)) }
      (fun p hp => hr p (by simp [hp])) h
    refine ⟨fs',?_,?_⟩
    · rw [List.map_cons, executeTasks, hstep]
      exact hrest
    · intro p hp
      apply hkeep
      by_cases hpq : p = q
      · subst hpq
        exact .inr (Function.update_self _ _ _)
      · rcases hp with hp | hp
        · exact .inl (List.mem_of_ne_of_mem hpq hp)
        · exact .inr ((Function.update_of_ne hpq _ _).trans hp)

theorem reduced_grouped (hf : OrderInsensitive reducef) (hn : 1 ≤ nReduce)
    (outs : List (List KeyValue)) :
    Grouped KeyValue.key KeyValue.value reducef outs.flatten
      ((List.range nReduce).flatMap (reduced sort reducef nReduce outs)) := by
  apply grouped_parts (fun k => ihash k % nReduce) (fun k => Nat.mod_lt _ hn)
  intro p _
  exact reduce_sorted_grouped reducef hf sort (part nReduce outs.flatten p)

/-- The key of a pair is printed on one line of one partition. -/
theorem reduced_once (hf : OrderInsensitive reducef) (hn : 1 ≤ nReduce)
    (outs : List (List KeyValue)) (kv : KeyValue) (hkv : kv ∈ outs.flatten) :
    ∃ p < nReduce, ((reduced sort reducef nReduce outs p).map Prod.fst).count kv.key = 1 ∧
      ∀ q < nReduce, q ≠ p → kv.key ∉ (reduced sort reducef nReduce outs q).map Prod.fst := by
  have hkeys : ∀ q, kv.key ∈ (reduced sort reducef nReduce outs q).map Prod.fst ↔
      kv.key ∈ (part nReduce outs.flatten q).map KeyValue.key := by
    intro q
    exact grouped_keys (reduce_sorted_grouped reducef hf sort _) kv.key
  refine ⟨ihash kv.key % nReduce,Nat.mod_lt _ hn,?_,?_⟩
  · apply List.count_eq_one_of_mem
    · exact (reduce_sorted_grouped reducef hf sort _).nodup
    · rw [hkeys]
      exact List.mem_map.mpr ⟨kv,List.mem_filter.mpr ⟨hkv,by simp⟩,rfl⟩
  · intro q _ hne hmem
    obtain ⟨kv',hm,hkey⟩ := List.mem_map.mp ((hkeys q).mp hmem)
    have hpart : ihash kv'.key % nReduce = q := by simpa using (List.mem_filter.mp hm).2
    rw [hkey] at hpart
    exact hne hpart.symm

theorem execute_tasks_each {fs fs' : Files} {tasks : List Task}
    (h : executeTasks contents sort.run mapf reducef fs tasks = .ok fs') :
    ∀ task ∈ tasks, ∃ fs1 fs2, executeTask contents sort.run mapf reducef fs1 task = .ok fs2 := by
  induction tasks generalizing fs with
  | nil => simp
  | cons t tasks ih =>
    cases hstep : executeTask contents sort.run mapf reducef fs t with
    | error msg => simp [executeTasks, hstep, bind, Except.bind] at h
    | ok fs1 =>
      simp only [executeTasks, hstep, bind, Except.bind] at h
      intro task ht
      rcases List.mem_cons.mp ht with rfl | ht
      · exact ⟨fs,fs1,hstep⟩
      · exact ih h task ht

theorem map_task_readable {fs1 fs2 : Files} {i : ℕ}
    (h : executeTask contents sort.run mapf reducef fs1 (mapTask files nReduce i) = .ok fs2) :
    ∃ content, readInput contents (files.getD i "") = .ok content := by
  cases hr : readInput contents (files.getD i "") with
  | error msg =>
    rw [mapTask, executeTask, mapFile, hr] at h
    cases h
  | ok content => exact ⟨content,rfl⟩

/-- All map tasks and then all reduce tasks, each at least once. -/
theorem tasks_reduced {outs : List (List KeyValue)}
    (houts : List.Forall₂ (Emits contents mapf) files outs) (hn : 1 ≤ nReduce) (fs : Files)
    (maps reduces : List ℕ) (hm : ∀ i, i ∈ maps ↔ i < files.length)
    (hr : ∀ p, p ∈ reduces ↔ p < nReduce) :
    ∃ fs', executeTasks contents sort.run mapf reducef fs
        (maps.map (mapTask files nReduce) ++ reduces.map (reduceTask files)) = .ok fs' ∧
      ∀ p < nReduce, fs'.out p = some (reduced sort reducef nReduce outs p) := by
  have hlen := houts.length_eq
  obtain ⟨fs1,hmaps,hmapped⟩ :=
    map_tasks_mapped sort reducef houts hn fs maps (fun i hi => (hm i).mp hi)
  have hdone : ∀ i < outs.length, Mapped nReduce outs fs1 i :=
    fun i hi => hmapped i (.inl ((hm i).mpr (hlen ▸ hi)))
  obtain ⟨fs',hreduces,hout⟩ := reduce_tasks_reduced contents sort mapf reducef hlen fs1 reduces
    (fun p hp => (hr p).mp hp) hdone
  refine ⟨fs',?_,fun p hp => hout p (.inl ((hr p).mpr hp))⟩
  rw [execute_tasks_append, hmaps]
  exact hreduces

/-- If all map tasks can be executed, mrsequential can read its files. -/
theorem tasks_readable {fs fs' : Files} {tasks : List Task}
    (h : executeTasks contents sort.run mapf reducef fs tasks = .ok fs')
    (hm : ∀ i < files.length, mapTask files nReduce i ∈ tasks) :
    ∃ all, collect contents mapf files [] = .ok all := by
  apply collect_total
  intro f hf
  obtain ⟨i,hi,rfl⟩ := List.mem_iff_getElem.mp hf
  obtain ⟨fs1,fs2,hok⟩ := execute_tasks_each sort reducef h _ (hm i hi)
  rw [List.getElem_eq_getD ""]
  exact map_task_readable sort reducef hok

end Tasks

/-- If all map tasks and then all reduce tasks are executed, each of them at
least once and in any order, the files mr-out-p have the lines that mrsequential
writes, and each key is printed on one line of one file. If mrsequential fails,
so does some task. -/
theorem distributed_sequential (contents : String → Except FileError String)
    (sort sort' : Sorter) (mapf : String → String → List KeyValue)
    (reducef : String → List String → String) (hf : OrderInsensitive reducef)
    (files : List String) (nReduce : ℕ) (hn : 1 ≤ nReduce) (fs : Files) (maps reduces : List ℕ)
    (hm : ∀ i, i ∈ maps ↔ i < files.length) (hr : ∀ p, p ∈ reduces ↔ p < nReduce) :
    let result := executeTasks contents sort.run mapf reducef fs
      (maps.map (mapTask files nReduce) ++ reduces.map (reduceTask files))
    (∀ intermediate lines, collect contents mapf files [] = .ok intermediate →
      mrsequential contents sort'.run mapf reducef files = .ok lines →
      ∃ fs' outs, result = .ok fs' ∧ (∀ p < nReduce, fs'.out p = some (outs p)) ∧
        (((List.range nReduce).flatMap outs).map line).Perm (lines.map line) ∧
        ∀ kv ∈ intermediate, ∃ p < nReduce, ((outs p).map Prod.fst).count kv.key = 1 ∧
          ∀ q < nReduce, q ≠ p → kv.key ∉ (outs q).map Prod.fst) ∧
    (∀ msg, mrsequential contents sort'.run mapf reducef files = .error msg →
      ∃ msg', result = .error msg') := by
  intro result
  constructor
  · intro intermediate lines hcollect hlines
    obtain ⟨outs,houts,hall⟩ := collect_outcome contents mapf files [] intermediate hcollect
    rw [List.nil_append] at hall
    obtain ⟨fs',hok,hout⟩ := tasks_reduced sort reducef houts hn fs maps reduces hm hr
    refine ⟨fs',reduced sort reducef nReduce outs,hok,hout,?_,?_⟩
    · apply List.Perm.map
      apply grouped_unique (reduced_grouped sort reducef hf hn outs)
      have hseq : reduceSorted reducef (sort'.run intermediate) = lines := by
        simpa [mrsequential, hcollect, bind, Except.bind] using hlines
      rw [← hseq, hall]
      exact reduce_sorted_grouped reducef hf sort' outs.flatten
    · intro kv hkv
      rw [hall] at hkv
      exact reduced_once sort reducef hf hn outs kv hkv
  · intro msg hseq
    cases hres : result with
    | error msg' => exact ⟨msg',rfl⟩
    | ok fs' =>
      obtain ⟨all,hall⟩ := tasks_readable sort reducef hres (fun i hi =>
        List.mem_append_left _ (List.mem_map.mpr ⟨i,(hm i).mpr hi,rfl⟩))
      simp [mrsequential, hall, bind, Except.bind] at hseq

def insertionSorter : Sorter where
  run kvs := kvs.insertionSort (fun a b => ¬ less b a)
  perm kvs := List.perm_insertionSort _ kvs
  sorted kvs := by
    have : Std.Total (fun a b : KeyValue => ¬ less b a) :=
      ⟨fun a b => by
        simp only [less, decide_eq_true_eq, not_lt]
        exact le_total a.key b.key⟩
    have : IsTrans KeyValue (fun a b => ¬ less b a) :=
      ⟨fun a b c hab hbc => by
        simp only [less, decide_eq_true_eq, not_lt] at *
        exact le_trans hab hbc⟩
    exact List.pairwise_insertionSort _ kvs

/-- Letters are counted in two files, with three partitions. -/
theorem distributed_sequential_letters :
    let contents : String → Except FileError String := fun filename =>
      if filename = "a.txt" then .ok "xyx" else if filename = "b.txt" then .ok "yz"
      else .error .open
    let mapf : String → String → List KeyValue := fun _ content =>
      content.toList.map (fun letter => ⟨String.singleton letter,"1"⟩)
    let reducef : String → List String → String := fun _ values => toString values.length
    ∃ fs' outs, executeTasks contents insertionSorter.run mapf reducef
        ⟨fun _ => none,fun _ => none⟩
        ([1,0,1].map (mapTask ["a.txt","b.txt"] 3) ++
          [2,0,1].map (reduceTask ["a.txt","b.txt"])) = .ok fs' ∧
      (∀ p < 3, fs'.out p = some (outs p)) ∧
      (((List.range 3).flatMap outs).map line).Perm ["x 2\n","y 2\n","z 1\n"] := by
  intro contents mapf reducef
  have hf : OrderInsensitive reducef := length_insensitive (fun _ n => toString n)
  have hseq : mrsequential contents insertionSorter.run mapf reducef ["a.txt","b.txt"] =
      .ok [("x","2"),("y","2"),("z","1")] := by
    decide +kernel
  obtain ⟨fs',outs,hok,hout,hperm,-⟩ := (distributed_sequential contents insertionSorter
    insertionSorter mapf reducef hf ["a.txt","b.txt"] 3 (by decide) _ [1,0,1] [2,0,1]
    (by intro i; simp; omega) (by intro p; simp; omega)).1 _ _ rfl hseq
  exact ⟨fs',outs,hok,hout,hperm⟩

end Mitdist.MapReduceEquivalence
