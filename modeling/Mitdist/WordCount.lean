import Mitdist.MrJob

/-!
# Counting words

The word count application emits one pair for each word of an input file, where
the words are the longest runs of letters, and counts the pairs of a word. What
a letter is stays open. When a job with this application is done, its output
files have one line for each word of the input, with the number of times that
it occurs in all input files.
-/

set_option autoImplicit false

namespace Mitdist.WordCount
open Mitdist.TransitionSystem Mitdist.Grouping Mitdist.MapReduce Mitdist.MapReduceEquivalence
open Mitdist.MrWorkers Mitdist.MrJob
open Mitdist.MapOutputReads (CreatesAlone noFiles)

/-- The loop of strings.FieldsFunc: `field` is the field that is being read. -/
def fieldsLoop (f : Char → Bool) : List Char → List Char → List String
  | [], field => if field = [] then [] else [String.ofList field]
  | r::rs, field =>
    if f r then (if field = [] then [] else [String.ofList field]) ++ fieldsLoop f rs []
    else fieldsLoop f rs (field ++ [r])

def fieldsFunc (s : String) (f : Char → Bool) : List String := fieldsLoop f s.toList []

section App
variable (isLetter : Char → Bool)

def map (_filename contents : String) : List KeyValue :=
  (fieldsFunc contents (fun r => !isLetter r)).map (fun w => ⟨w,"1"⟩)

def reduce (_key : String) (values : List String) : String := toString values.length

def app (contents : String → Except FileError String) (sort : Sorter) : App :=
  ⟨contents,map isLetter,reduce,sort⟩

/-- The nonempty parts of a text between characters that are not letters. -/
def words (text : String) : List String :=
  ((text.toList.splitOnP (fun r => !isLetter r)).filter (fun w => w ≠ [])).map String.ofList

end App

variable {isLetter : Char → Bool}

theorem modify_head_same (l : List (List Char)) : l.modifyHead (fun w => w) = l := by
  cases l <;> rfl

theorem fields_loop_split (f : Char → Bool) (rs field : List Char) :
    fieldsLoop f rs field =
      (((rs.splitOnP f).modifyHead (field ++ ·)).filter (fun w => w ≠ [])).map String.ofList := by
  induction rs generalizing field with
  | nil =>
    rw [fieldsLoop]
    split_ifs with h <;> simp [h]
  | cons r rs ih =>
    rw [fieldsLoop, List.splitOnP_cons_eq_if_modifyHead]
    split_ifs with hr h
    · subst h
      simp [ih, modify_head_same]
    · simp [ih, h, modify_head_same]
    · rw [ih, List.modifyHead_modifyHead]
      simp [Function.comp_def]

theorem fields_func_words (text : String) :
    fieldsFunc text (fun r => !isLetter r) = words isLetter text := by
  rw [fieldsFunc, fields_loop_split, words]
  simp [modify_head_same]

theorem reduce_insensitive : OrderInsensitive reduce := length_insensitive (fun _ n => toString n)

theorem read_input_ok (contents : String → Except FileError String) (f text : String)
    (h : readInput contents f = .ok text) : contents f = .ok text := by
  rw [readInput] at h
  split at h
  · rename_i content hc
    rw [hc, Except.ok.inj h]
  · cases h
  · cases h

/-- All pairs of a job are the words of its input. -/
theorem emits_words (contents : String → Except FileError String) (files : List String)
    (outs : List (List KeyValue)) (h : List.Forall₂ (Emits contents (map isLetter)) files outs) :
    ∃ texts, List.Forall₂ (fun f text => contents f = .ok text) files texts ∧
      outs.flatten = (texts.flatMap (words isLetter)).map (fun w => ⟨w,"1"⟩) := by
  induction h with
  | nil => exact ⟨[],.nil,rfl⟩
  | cons hemit _ ih =>
    obtain ⟨texts,htexts,hflat⟩ := ih
    obtain ⟨text,hr,rfl⟩ := hemit
    refine ⟨text::texts,.cons (read_input_ok contents _ text hr) htexts,?_⟩
    rw [List.flatten_cons, hflat, map, fields_func_words, List.flatMap_cons, List.map_append]

theorem values_count (ws : List String) (w : String) :
    (values KeyValue.key KeyValue.value w (ws.map (fun v => ⟨v,"1"⟩))).length = ws.count w := by
  rw [values, List.length_map, List.filter_map, List.length_map, List.count_eq_length_filter]
  congr 1

/-- In every run of the word count application in which workers open only files
of unreported tasks that no running worker has open, when the coordinator is
done the output files have one line for each word of the input, with the number
of times that it occurs. -/
theorem word_count (isLetter : Char → Bool) (contents : String → Except FileError String)
    (sort : Sorter) (files : List String) (nReduce : ℕ) (hn : 1 ≤ nReduce) (fs : Files) (n : ℕ)
    (es : List Event) (s : System)
    (hm : Meets (step (app isLetter contents sort)) CreatesAlone (start files nReduce fs n) es)
    (h : exec (step (app isLetter contents sort)) (start files nReduce fs n) es = some s)
    (hd : s.job.c.done = true) :
    ∃ texts outs, List.Forall₂ (fun f text => contents f = .ok text) files texts ∧
      (∀ p < nReduce, s.files.out p = some (outs p)) ∧
      (((List.range nReduce).flatMap outs).map Prod.fst).Nodup ∧
      ∀ word count, (word, count) ∈ (List.range nReduce).flatMap outs ↔
        word ∈ texts.flatMap (words isLetter) ∧
          count = toString ((texts.flatMap (words isLetter)).count word) := by
  obtain ⟨hemit,hout⟩ := done_outputs (produces_run fs n es s hm h) hd
  obtain ⟨texts,htexts,hflat⟩ := emits_words contents files _ hemit
  have hgrouped := reduced_grouped sort reduce reduce_insensitive hn
    (allPairs (app isLetter contents sort) files)
  refine ⟨texts,_,htexts,hout,hgrouped.nodup,fun word count => ?_⟩
  rw [hflat] at hgrouped
  rw [show (app isLetter contents sort).sort = sort from rfl, show
    (app isLetter contents sort).reducef = reduce from rfl, hgrouped.mem word count, reduce,
    values_count, List.map_map]
  simp

def twoTexts : String → Except FileError String := fun f =>
  if f = "a.txt" then .ok "The cat, the dog" else .ok "the end"

def countRun : List Event :=
  [.act 0 .getTask,.act 0 .create,.act 0 .encode,.act 0 .encode,.act 0 .finishTask,
    .evaluate .mapLock,.store .mapLock,.act 0 .getTask,.act 0 .create,.act 0 .encode,.act 0 .encode,
    .act 0 .encode,.act 0 .encode,.act 0 .finishTask,.evaluate .mapLock,.store .mapLock,
    .act 0 .getTask,.act 0 .read,.act 0 .read,.act 0 .rename,.act 0 .finishTask,
    .evaluate .reduceLock,.store .reduceLock]

theorem word_count_two_texts : ∃ s,
    exec (step (app Char.isAlpha twoTexts insertionSorter)) (start ["a.txt","b.txt"] 1 noFiles 1)
      countRun = some s ∧ s.job.c.done = true ∧
    s.files.out 0 = some [("The","1"),("cat","1"),("dog","1"),("end","1"),("the","2")] ∧
    ∃ texts outs, List.Forall₂ (fun f text => twoTexts f = .ok text) ["a.txt","b.txt"] texts ∧
      (∀ p < 1, s.files.out p = some (outs p)) ∧
      ∀ word count, (word, count) ∈ (List.range 1).flatMap outs ↔
        word ∈ texts.flatMap (words Char.isAlpha) ∧
          count = toString ((texts.flatMap (words Char.isAlpha)).count word) := by
  obtain ⟨s,hs⟩ := Option.isSome_iff_exists.mp (by decide +kernel :
    (exec (step (app Char.isAlpha twoTexts insertionSorter))
      (start ["a.txt","b.txt"] 1 noFiles 1) countRun).isSome = true)
  have hends : ∀ s ∈ exec (step (app Char.isAlpha twoTexts insertionSorter))
      (start ["a.txt","b.txt"] 1 noFiles 1) countRun, s.job.c.done = true ∧
      s.files.out 0 = some [("The","1"),("cat","1"),("dog","1"),("end","1"),("the","2")] := by
    decide +kernel
  obtain ⟨hdone,hout⟩ := hends s hs
  obtain ⟨texts,outs,htexts,houts,-,hmem⟩ := word_count Char.isAlpha twoTexts insertionSorter
    ["a.txt","b.txt"] 1 (by decide) noFiles 1 countRun s (by decide +kernel) hs hdone
  exact ⟨s,hs,hdone,hout,texts,outs,htexts,houts,hmem⟩

end Mitdist.WordCount
