import Mathlib.Algebra.Order.Group.Int
import Mathlib.Data.List.Induction
import Mathlib.Data.List.Nodup
import Mathlib.Logic.Function.Basic

/-!
# Numbered requests over one sequence

Clients number their requests. A sequence, in which a request may occur any
number of times, is replayed against a state and a table of the latest number
and result of each client; a request that is not above the table is skipped.
If the first occurrences of each client's requests are in the order of their
numbers, then exactly the first occurrences are performed.
-/

set_option autoImplicit false

namespace Mitdist.Sessions

structure Machine (S O R K : Type*) where
  execute : S → O → S × R
  client : O → K
  number : O → ℤ

structure Store (S R K : Type*) where
  state : S
  last : K → Option (ℤ × R)

variable {S O R K : Type*}

/-- The first occurrence of a request is at an index. -/
def First (os : List O) (i : ℕ) (o : O) : Prop := os[i]? = some o ∧ o ∉ os.take i

theorem first_lt {os : List O} {i : ℕ} {o : O} (h : First os i o) : i < os.length :=
  (List.getElem?_eq_some_iff.mp h.1).1

theorem first_append {os : List O} {i : ℕ} {o : O} (h : First os i o) (os' : List O) :
    First (os ++ os') i o ∧ (os ++ os').take i = os.take i := by
  have htake : (os ++ os').take i = os.take i := List.take_append_of_le_length (first_lt h).le
  exact ⟨⟨by rw [List.getElem?_append_left (first_lt h), h.1],htake ▸ h.2⟩,htake⟩

theorem first_concat {os : List O} {i : ℕ} {o x : O} (h : First (os ++ [x]) i o) :
    First os i o ∨ i = os.length ∧ o = x ∧ o ∉ os := by
  rcases lt_trichotomy i os.length with hlt | rfl | hgt
  · exact Or.inl ⟨by rw [← h.1, List.getElem?_append_left hlt],
      by rw [← List.take_append_of_le_length hlt.le]; exact h.2⟩
  · refine Or.inr ⟨rfl,?_,?_⟩
    · have := h.1
      simp only [List.getElem?_concat_length, Option.some.injEq] at this
      exact this.symm
    · have := h.2
      rwa [List.take_left'] at this
      rfl
  · have := first_lt h
    simp at this
    omega

theorem first_of_mem (os : List O) (o : O) (h : o ∈ os) : ∃ i, First os i o := by
  induction os using List.reverseRecOn with
  | nil => simp at h
  | append_singleton os x ih =>
    by_cases ho : o ∈ os
    · obtain ⟨i,hi⟩ := ih ho
      exact ⟨i,(first_append hi [x]).1⟩
    · obtain rfl : o = x := by simpa [ho] using h
      exact ⟨os.length,by simp,by simpa using ho⟩

theorem first_unique {os : List O} {i j : ℕ} {o : O} (hi : First os i o) (hj : First os j o) :
    i = j := by
  have key : ∀ i j, First os i o → First os j o → ¬ i < j := fun i j hi hj hlt =>
    hj.2 (List.mem_of_getElem? (by rw [List.getElem?_take_of_lt hlt, hi.1]))
  exact le_antisymm (not_lt.mp (key j i hj hi)) (not_lt.mp (key i j hi hj))

theorem index_unique {os : List O} (h : os.Nodup) {i j : ℕ} {o : O} (hi : os[i]? = some o)
    (hj : os[j]? = some o) : i = j :=
  (List.getElem?_inj (List.getElem?_eq_some_iff.mp hi).1 h).mp (hi.trans hj.symm)

section
variable [DecidableEq O]

/-- The requests of a sequence, each once, in the order of their first
occurrences. -/
def firsts (os : List O) : List O := os.foldl (fun l o => if o ∈ l then l else l ++ [o]) []

theorem firsts_concat (os : List O) (o : O) :
    firsts (os ++ [o]) = if o ∈ firsts os then firsts os else firsts os ++ [o] := by
  rw [firsts, List.foldl_append]
  rfl

@[simp]
theorem mem_firsts (os : List O) (o : O) : o ∈ firsts os ↔ o ∈ os := by
  induction os using List.reverseRecOn with
  | nil => simp [firsts]
  | append_singleton os x ih =>
    rw [firsts_concat]
    split_ifs with hx
    · rw [List.mem_append, ih, List.mem_singleton]
      refine ⟨Or.inl,?_⟩
      rintro (ho | rfl)
      · exact ho
      · exact ih.mp hx
    · rw [List.mem_append, List.mem_append, ih]

theorem nodup_firsts (os : List O) : (firsts os).Nodup := by
  induction os using List.reverseRecOn with
  | nil => exact List.nodup_nil
  | append_singleton os x ih =>
    rw [firsts_concat]
    split_ifs with hx
    · exact ih
    · simpa using ih.concat hx

theorem first_firsts {os : List O} {i : ℕ} {o : O} (h : First os i o) :
    ∃ k, (firsts os)[k]? = some o ∧ (firsts os).take k = firsts (os.take i) := by
  induction os using List.reverseRecOn with
  | nil => simp [First] at h
  | append_singleton os x ih =>
    rw [firsts_concat]
    rcases first_concat h with hi | ⟨rfl,rfl,hnew⟩
    · obtain ⟨k,hk,htake⟩ := ih hi
      rw [(first_append hi [x]).2]
      split_ifs
      · exact ⟨k,hk,htake⟩
      · have hlt := (List.getElem?_eq_some_iff.mp hk).1
        exact ⟨k,by rw [List.getElem?_append_left hlt, hk],
          by rw [List.take_append_of_le_length hlt.le, htake]⟩
    · rw [if_neg (by simpa using hnew)]
      exact ⟨(firsts os).length,by simp,by simp⟩

end

variable (M : Machine S O R K)

/-- The first occurrences of the requests of a client are in the order of
their numbers. -/
def Sequential (os : List O) : Prop :=
  ∀ i o, First os i o → ∀ o' ∈ os.take i, M.client o' = M.client o → M.number o' < M.number o

theorem sequential_nil : Sequential M [] := fun i o h => by simp [First] at h

theorem sequential_concat {os : List O} {x : O} (h : Sequential M os)
    (hx : x ∉ os → ∀ o ∈ os, M.client o = M.client x → M.number o < M.number x) :
    Sequential M (os ++ [x]) := by
  intro i o hi o' ho' hc
  rcases first_concat hi with hi | ⟨rfl,rfl,hnew⟩
  · rw [(first_append hi [x]).2] at ho'
    exact h i o hi o' ho' hc
  · exact hx hnew o' (by simpa using ho') hc

theorem sequential_take {os : List O} (h : Sequential M os) (k : ℕ) : Sequential M (os.take k) := by
  intro i o hi o' ho' hc
  obtain ⟨hi',htake⟩ := first_append hi (os.drop k)
  rw [List.take_append_drop] at hi' htake
  exact h i o hi' o' (htake ▸ ho') hc

def sequentially (s : S) (os : List O) : S := os.foldl (fun s o => (M.execute s o).1) s

theorem sequentially_concat (s : S) (os : List O) (o : O) :
    sequentially M s (os ++ [o]) = (M.execute (sequentially M s os) o).1 := by
  simp [sequentially]

def Stale (x : Store S R K) (o : O) : Prop := ∃ l ∈ x.last (M.client o), M.number o ≤ l.1

instance decidableStale (x : Store S R K) (o : O) : Decidable (Stale M x o) :=
  match h : x.last (M.client o) with
  | none => .isFalse (by simp [Stale, h])
  | some l => decidable_of_iff (M.number o ≤ l.1) (by simp [Stale, h])

variable [DecidableEq K]

def perform (x : Store S R K) (o : O) : Store S R K :=
  if Stale M x o then x
  else
    let y := M.execute x.state o
    ⟨y.1,Function.update x.last (M.client o) (some (M.number o, y.2))⟩

def replay (s : S) (os : List O) : Store S R K := os.foldl (perform M) ⟨s,fun _ => none⟩

@[simp]
theorem replay_nil (s : S) : replay M s [] = ⟨s,fun _ => none⟩ := rfl

theorem replay_concat (s : S) (os : List O) (o : O) :
    replay M s (os ++ [o]) = perform M (replay M s os) o := by
  simp [replay]

/-- A result is the one that the request has at its first occurrence. -/
def Computed (s : S) (os : List O) (o : O) (r : R) : Prop :=
  ∃ i, First os i o ∧ r = (M.execute (replay M s (os.take i)).state o).2

theorem computed_append {s : S} {os : List O} {o : O} {r : R} (h : Computed M s os o r)
    (os' : List O) : Computed M s (os ++ os') o r := by
  obtain ⟨i,hi,hr⟩ := h
  obtain ⟨hi',htake⟩ := first_append hi os'
  exact ⟨i,hi',htake ▸ hr⟩

theorem computed_of_take {s : S} {os : List O} {o : O} {r : R} {k : ℕ}
    (h : Computed M s (os.take k) o r) : Computed M s os o r := by
  have := computed_append M h (os.drop k)
  rwa [List.take_append_drop] at this

/-- What the table holds for a client. -/
structure Latest (s : S) (os : List O) (c : K) : Prop where
  absent : (replay M s os).last c = none → ∀ o ∈ os, M.client o ≠ c
  upper : ∀ l, (replay M s os).last c = some l → ∀ o ∈ os, M.client o = c → M.number o ≤ l.1
  source : ∀ l, (replay M s os).last c = some l →
    ∃ o, M.client o = c ∧ M.number o = l.1 ∧ Computed M s os o l.2

theorem Latest.stale {s : S} {os : List O} {o : O} (h : Latest M s os (M.client o)) :
    Stale M (replay M s os) o ↔ ∃ o' ∈ os, M.client o' = M.client o ∧ M.number o ≤ M.number o' := by
  constructor
  · rintro ⟨l,hl,hle⟩
    obtain ⟨o',hc,hn,i,hi,-⟩ := h.source l hl
    exact ⟨o',List.mem_of_getElem? hi.1,hc,hle.trans hn.ge⟩
  · rintro ⟨o',ho',hc,hle⟩
    cases hl : (replay M s os).last (M.client o) with
    | none => exact absurd hc (h.absent hl o' ho')
    | some l => exact ⟨l,hl,hle.trans (h.upper l hl o' ho' hc)⟩

theorem latest (s : S) (os : List O) (c : K) : Latest M s os c := by
  induction os using List.reverseRecOn generalizing c with
  | nil =>
    exact ⟨fun _ o ho => absurd ho List.not_mem_nil,fun l hl => by simp at hl,
      fun l hl => by simp at hl⟩
  | append_singleton os x ih =>
    have hx := (ih (M.client x)).stale M
    by_cases hs : Stale M (replay M s os) x
    · have hr : replay M s (os ++ [x]) = replay M s os := by
        rw [replay_concat, perform, if_pos hs]
      obtain ⟨o',ho',hc',hle⟩ := hx.mp hs
      refine ⟨fun hl o ho => ?_,fun l hl o ho hc => ?_,fun l hl => ?_⟩
      · rw [hr] at hl
        rcases List.mem_append.mp ho with ho | ho
        · exact (ih c).absent hl o ho
        · obtain rfl := List.mem_singleton.mp ho
          exact hc' ▸ (ih c).absent hl o' ho'
      · rw [hr] at hl
        rcases List.mem_append.mp ho with ho | ho
        · exact (ih c).upper l hl o ho hc
        · obtain rfl := List.mem_singleton.mp ho
          exact hle.trans ((ih c).upper l hl o' ho' (hc'.trans hc))
      · rw [hr] at hl
        obtain ⟨o,hc,hn,hcomp⟩ := (ih c).source l hl
        exact ⟨o,hc,hn,computed_append M hcomp [x]⟩
    · have hlast : (replay M s (os ++ [x])).last = Function.update (replay M s os).last (M.client x)
          (some (M.number x, (M.execute (replay M s os).state x).2)) := by
        rw [replay_concat, perform, if_neg hs]
      have hlow : ∀ o ∈ os, M.client o = M.client x → M.number o < M.number x :=
        fun o ho hc => not_le.mp (fun hle => hs (hx.mpr ⟨o,ho,hc,hle⟩))
      by_cases hcx : c = M.client x
      · subst hcx
        have hlx : (replay M s (os ++ [x])).last (M.client x) =
            some (M.number x, (M.execute (replay M s os).state x).2) := by
          rw [hlast, Function.update_self]
        refine ⟨fun hl => by simp [hlx] at hl,fun l hl o ho hc => ?_,fun l hl => ?_⟩
        · obtain rfl := Option.some.inj (hlx.symm.trans hl)
          rcases List.mem_append.mp ho with ho | ho
          · exact (hlow o ho hc).le
          · rw [List.mem_singleton.mp ho]
        · obtain rfl := Option.some.inj (hlx.symm.trans hl)
          refine ⟨x,rfl,rfl,os.length,⟨by simp,?_⟩,by simp⟩
          simpa using fun hmem => lt_irrefl _ (hlow x hmem rfl)
      · have hsame : (replay M s (os ++ [x])).last c = (replay M s os).last c := by
          rw [hlast, Function.update_of_ne hcx]
        refine ⟨fun hl o ho => ?_,fun l hl o ho hc => ?_,fun l hl => ?_⟩
        · rcases List.mem_append.mp ho with ho | ho
          · exact (ih c).absent (hsame ▸ hl) o ho
          · exact List.mem_singleton.mp ho ▸ Ne.symm hcx
        · rcases List.mem_append.mp ho with ho | ho
          · exact (ih c).upper l (hsame ▸ hl) o ho hc
          · exact absurd (List.mem_singleton.mp ho ▸ hc).symm hcx
        · obtain ⟨o,hc,hn,hcomp⟩ := (ih c).source l (hsame ▸ hl)
          exact ⟨o,hc,hn,computed_append M hcomp [x]⟩

theorem stale_iff (s : S) (os : List O) (o : O) :
    Stale M (replay M s os) o ↔ ∃ o' ∈ os, M.client o' = M.client o ∧ M.number o ≤ M.number o' :=
  (latest M s os (M.client o)).stale M

/-- The table keeps the result of a client's request until a newer one of the
client is performed. -/
theorem replay_retains (s : S) (os os' : List O) (c : K) (l : ℤ × R)
    (h : (replay M s os).last c = some l)
    (hold : ∀ o ∈ os', M.client o = c → M.number o ≤ l.1) :
    (replay M s (os ++ os')).last c = some l := by
  induction os' using List.reverseRecOn with
  | nil => simpa using h
  | append_singleton os' x ih =>
    have hlast := ih (fun o ho => hold o (List.mem_append_left _ ho))
    rw [← List.append_assoc, replay_concat, perform]
    split_ifs with hs
    · exact hlast
    · by_cases hc : c = M.client x
      · subst hc
        exact absurd ⟨l,hlast,hold x (by simp) rfl⟩ hs
      · rw [← hlast]
        exact Function.update_of_ne hc _ _

/-- Exactly the first occurrences are performed. -/
theorem performed_iff_first {os : List O} (hs : Sequential M os) (s : S) {i : ℕ} {o : O}
    (h : os[i]? = some o) : ¬ Stale M (replay M s (os.take i)) o ↔ First os i o := by
  rw [stale_iff]
  constructor
  · intro hn
    exact ⟨h,fun hmem => hn ⟨o,hmem,rfl,le_rfl⟩⟩
  · rintro hi ⟨o',ho',hc,hle⟩
    exact absurd (hs i o hi o' ho' hc) (not_lt.mpr hle)

/-- Replaying a sequence reaches the state of its first occurrences alone. -/
theorem replay_state [DecidableEq O] {os : List O} (h : Sequential M os) (s : S) :
    (replay M s os).state = sequentially M s (firsts os) := by
  induction os using List.reverseRecOn with
  | nil => rfl
  | append_singleton os x ih =>
    have hos : Sequential M os := by simpa using sequential_take M h os.length
    have hx := performed_iff_first M h s (i := os.length) (o := x) (by simp)
    rw [List.take_left' rfl] at hx
    rw [replay_concat, perform, firsts_concat]
    split_ifs with hs hmem hmem
    · exact ih hos
    · exact absurd (hx.mpr ⟨by simp,by simpa using hmem⟩) (not_not.mpr hs)
    · exact absurd ((mem_firsts os x).mp hmem) (by simpa using (hx.mp hs).2)
    · rw [sequentially_concat, ← ih hos]

end Mitdist.Sessions
