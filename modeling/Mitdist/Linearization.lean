import Mitdist.Sessions

/-!
# Linearizations of a history

A history records when requests are invoked and when they are answered. A
sequence in which requests may occur many times answers a history with the
results of the first occurrences; if it also respects the order of the history,
its first occurrences are a linearization.
-/

set_option autoImplicit false

namespace Mitdist.Linearization
open Mitdist.Sessions

inductive Act (O V : Type*) where
  | invoke (o : O)
  | respond (o : O) (v : V)
  deriving DecidableEq, Repr

variable {S O R K V : Type*}

def invoked (history : List (Act O V)) : List O :=
  history.filterMap (fun | .invoke o => some o | .respond _ _ => none)

def answered (history : List (Act O V)) : List O :=
  history.filterMap (fun | .invoke _ => none | .respond o _ => some o)

@[simp]
theorem invoked_invoke (history : List (Act O V)) (o : O) :
    invoked (history ++ [.invoke o]) = invoked history ++ [o] := by
  simp [invoked]

@[simp]
theorem invoked_respond (history : List (Act O V)) (o : O) (v : V) :
    invoked (history ++ [.respond o v]) = invoked history := by
  simp [invoked]

@[simp]
theorem answered_invoke (history : List (Act O V)) (o : O) :
    answered (history ++ [.invoke o]) = answered history := by
  simp [answered]

@[simp]
theorem answered_respond (history : List (Act O V)) (o : O) (v : V) :
    answered (history ++ [.respond o v]) = answered history ++ [o] := by
  simp [answered]

theorem mem_answered (history : List (Act O V)) (o : O) :
    o ∈ answered history ↔ ∃ v, .respond o v ∈ history := by
  rw [answered, List.mem_filterMap]
  constructor
  · rintro ⟨a,ha,hv⟩
    cases a with
    | invoke b => simp at hv
    | respond b v => exact ⟨v,Option.some.inj hv ▸ ha⟩
  · rintro ⟨v,hv⟩
    exact ⟨_,hv,rfl⟩

/-- A request that was answered before another was invoked occurs before it. -/
def Respects (history : List (Act O V)) (os : List O) : Prop :=
  ∀ (i j : ℕ) (a b : O) (v : V), history[i]? = some (.respond a v) →
    history[j]? = some (.invoke b) → i < j → ∀ l, First os l b → a ∈ os.take l

theorem respects_invoke {history : List (Act O V)} {os : List O} (h : Respects history os) (o : O)
    (ho : o ∉ os) : Respects (history ++ [.invoke o]) os := by
  intro i j a b v hi hj hij l hl
  rw [List.getElem?_append] at hj
  split_ifs at hj with hlt
  · rw [List.getElem?_append_left (hij.trans hlt)] at hi
    exact h i j a b v hi hj hij l hl
  · have hb := List.mem_of_getElem? hj
    obtain rfl : b = o := by simpa using hb
    exact absurd (List.mem_of_getElem? hl.1) ho

theorem respects_respond {history : List (Act O V)} {os : List O} (h : Respects history os) (o : O)
    (w : V) : Respects (history ++ [.respond o w]) os := by
  intro i j a b v hi hj hij l hl
  rw [List.getElem?_append] at hj
  split_ifs at hj with hlt
  · rw [List.getElem?_append_left (hij.trans hlt)] at hi
    exact h i j a b v hi hj hij l hl
  · have hb := List.mem_of_getElem? hj
    simp at hb

theorem respects_concat {history : List (Act O V)} {os : List O} (h : Respects history os) (o : O)
    (ha : ∀ a ∈ answered history, a ∈ os) : Respects history (os ++ [o]) := by
  intro i j a b v hi hj hij l hl
  rcases first_concat hl with hl | ⟨rfl,-,-⟩
  · rw [(first_append hl [o]).2]
    exact h i j a b v hi hj hij l hl
  · simpa using ha a ((mem_answered history a).mpr ⟨v,List.mem_of_getElem? hi⟩)

variable [DecidableEq K] (M : Machine S O R K)

/-- A sequence of requests, each once, explains a history: it has every request
that was answered, with the value that it was answered with, only requests
that were invoked, and those of which one was answered before the other was
invoked in that order. -/
structure Linearizes (view : R → V) (s : S) (history : List (Act O V)) (os : List O) : Prop where
  nodup : os.Nodup
  invoked : ∀ o ∈ os, o ∈ invoked history
  answered : ∀ o v, .respond o v ∈ history →
    ∃ k, os[k]? = some o ∧ v = view (M.execute (sequentially M s (os.take k)) o).2
  order : ∀ (i j : ℕ) (a b : O) (v : V), history[i]? = some (.respond a v) →
    history[j]? = some (.invoke b) → i < j → ∀ k l : ℕ, os[k]? = some a → os[l]? = some b → k < l

theorem linearizes_firsts [DecidableEq O] (view : R → V) (s : S) (history : List (Act O V))
    (os : List O) (hs : Sequential M os) (hi : ∀ o ∈ os, o ∈ invoked history)
    (ha : ∀ o v, .respond o v ∈ history → ∃ r, Computed M s os o r ∧ v = view r)
    (ho : Respects history os) :
    Linearizes M view s history (firsts os) where
  nodup := nodup_firsts os
  invoked o h := hi o ((mem_firsts os o).mp h)
  answered o v h := by
    obtain ⟨r,⟨i,hfirst,rfl⟩,rfl⟩ := ha o v h
    obtain ⟨k,hk,htake⟩ := first_firsts hfirst
    exact ⟨k,hk,by rw [htake, ← replay_state M (sequential_take M hs i)]⟩
  order i j a b v hi hj hij k l hk hl := by
    obtain ⟨p,hp⟩ := first_of_mem os b ((mem_firsts os b).mp (List.mem_of_getElem? hl))
    obtain ⟨q,hq,htake⟩ := first_firsts hp
    have hmem : a ∈ (firsts os).take q := by
      rw [htake, mem_firsts]
      exact ho i j a b v hi hj hij p hp
    obtain rfl := index_unique (nodup_firsts os) hq hl
    obtain ⟨m,hm,hma⟩ := List.mem_take_iff_getElem.mp hmem
    have hka := index_unique (nodup_firsts os) hk (List.getElem?_eq_some_iff.mpr ⟨_,hma⟩)
    omega

end Mitdist.Linearization
