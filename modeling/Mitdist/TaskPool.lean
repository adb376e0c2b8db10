import Mathlib.Data.Finset.Card
import Mathlib.Data.Finset.Range
import Mathlib.Data.List.Count
import Mitdist.Progress

/-!
# Pools of numbered tasks

A task waits in a queue, or it was handed out and a timer is pending that puts
it back unless it is finished by then. Its token is in the queue or with a
timer, and finishing a task does not touch the token. So there is never more
than one token for a task, and there is one as long as it is not finished.
-/

set_option autoImplicit false

namespace Mitdist.TaskPool
open Mitdist.TransitionSystem Mitdist.Progress

structure Pool where
  queue : List ℕ
  pending : List ℕ
  finished : Finset ℕ

/-- What one step can do: hand out the last task of the queue, finish any task,
or let a timer expire. -/
inductive Moves (p : Pool) : Pool → Prop
  | stay : Moves p p
  | hand (rest : List ℕ) (t : ℕ) (h : p.queue = rest ++ [t]) :
      Moves p { p with queue := rest, pending := p.pending ++ [t] }
  | finish (t : ℕ) : Moves p { p with finished := insert t p.finished }
  | expire (t : ℕ) (h : t ∈ p.pending) : Moves p { p with
      queue := if t ∈ p.finished then p.queue else p.queue ++ [t]
      pending := p.pending.erase t }

def tokens (p : Pool) (t : ℕ) : ℕ := p.queue.count t + p.pending.count t

/-- The tokens of a pool of the tasks below `n`. -/
structure Sound (n : ℕ) (p : Pool) : Prop where
  valid : ∀ t, 0 < tokens p t → t < n
  once : ∀ t, tokens p t ≤ 1
  kept : ∀ t < n, t ∉ p.finished → tokens p t = 1

def fresh (n : ℕ) : Pool := ⟨List.range n,[],∅⟩

theorem sound_fresh (n : ℕ) : Sound n (fresh n) := by
  have hcount : ∀ t, tokens (fresh n) t = if t < n then 1 else 0 := by
    intro t
    simp only [tokens, fresh, List.count_nil, Nat.add_zero]
    split_ifs with ht
    · exact List.count_eq_one_of_mem List.nodup_range (List.mem_range.mpr ht)
    · exact List.count_eq_zero.mpr (fun hm => ht (List.mem_range.mp hm))
  constructor
  · intro t ht
    rw [hcount] at ht
    by_contra hn
    simp [hn] at ht
  · intro t
    rw [hcount]
    split_ifs <;> omega
  · intro t ht _
    rw [hcount, if_pos ht]

/-- The token of a task that is handed out moves to a timer. -/
theorem tokens_hand (p : Pool) (rest : List ℕ) (t u : ℕ) (h : p.queue = rest ++ [t]) :
    tokens { p with queue := rest, pending := p.pending ++ [t] } u = tokens p u := by
  simp only [tokens, h, List.count_append]
  omega

/-- The token that a timer holds goes back to the queue, or is gone if the task
is finished. -/
theorem tokens_expire (p : Pool) (t u : ℕ) (h : t ∈ p.pending) :
    tokens { p with
      queue := if t ∈ p.finished then p.queue else p.queue ++ [t]
      pending := p.pending.erase t } u =
        if u = t ∧ t ∈ p.finished then tokens p u - 1 else tokens p u := by
  have hpos := List.count_pos_iff.mpr h
  by_cases hu : u = t
  · subst hu
    by_cases hf : u ∈ p.finished
    · simp only [tokens, hf, and_self, if_true, List.count_erase_self]
      omega
    · simp only [tokens, hf, and_false, if_false, List.count_erase_self, List.count_append,
        List.count_singleton_self]
      omega
  · have hne : List.count u [t] = 0 := by
      apply List.count_eq_zero.mpr
      intro hm
      exact hu (List.mem_singleton.mp hm)
    by_cases hf : t ∈ p.finished
    · simp only [tokens, hf, hu, false_and, if_true, if_false, List.count_erase_of_ne hu]
    · simp only [tokens, hf, hu, false_and, if_false, List.count_erase_of_ne hu, List.count_append,
        hne, Nat.add_zero]

theorem sound_moves (n : ℕ) (p q : Pool) (h : Sound n p) (hm : Moves p q) : Sound n q := by
  cases hm with
  | stay => exact h
  | hand rest t hq =>
    have hsame := fun u => tokens_hand p rest t u hq
    constructor
    · intro u hu
      exact h.valid u (hsame u ▸ hu)
    · intro u
      rw [hsame u]
      exact h.once u
    · intro u hu hf
      rw [hsame u]
      exact h.kept u hu hf
  | finish t =>
    constructor
    · exact h.valid
    · exact h.once
    · intro u hu hf
      exact h.kept u hu (fun hc => hf (Finset.mem_insert_of_mem hc))
  | expire t ht =>
    have hcases := fun u => tokens_expire p t u ht
    constructor
    · intro u hu
      rw [hcases u] at hu
      apply h.valid u
      split_ifs at hu <;> omega
    · intro u
      have := h.once u
      rw [hcases u]
      split_ifs <;> omega
    · intro u hu hf
      have hcond : ¬ (u = t ∧ t ∈ p.finished) := fun hc => hf (hc.1 ▸ hc.2)
      rw [hcases u, if_neg hcond]
      exact h.kept u hu hf

theorem queued_valid (n : ℕ) (p : Pool) (h : Sound n p) (t : ℕ) (ht : t ∈ p.queue) : t < n := by
  have hpos := List.count_pos_iff.mpr ht
  exact h.valid t (by rw [tokens]; omega)

/-- The size of the set of the reported tasks tells whether it has all of them. -/
theorem card_reported (n : ℕ) (s : Finset ℕ) (R : ℕ → Prop) (hs : ∀ t, t ∈ s ↔ R t)
    (hR : ∀ t, R t → t < n) : s.card ≤ n ∧ (s.card = n ↔ ∀ t < n, R t) := by
  have hsub : s ⊆ Finset.range n := fun t ht => Finset.mem_range.mpr (hR t ((hs t).mp ht))
  constructor
  · have hle := Finset.card_le_card hsub
    rwa [Finset.card_range] at hle
  · constructor
    · intro hc t ht
      have heq := Finset.eq_of_subset_of_card_le hsub (by rw [Finset.card_range, hc])
      rw [← hs, heq]
      exact Finset.mem_range.mpr ht
    · intro hall
      have heq : s = Finset.range n := by
        apply Finset.Subset.antisymm hsub
        intro t ht
        exact (hs t).mpr (hall t (Finset.mem_range.mp ht))
      rw [heq, Finset.card_range]

/-- If an event takes the last task of a queue, it takes the tasks behind a task
one by one until that task is the last. -/
theorem exec_drain {σ ε : Type*} (step : σ → ε → Option σ) (e : ε) (queue : σ → List ℕ)
    (I : σ → Prop) (hpop : ∀ s rest t, I s → queue s = rest ++ [t] →
      ∃ s', step s e = some s' ∧ I s' ∧ queue s' = rest)
    (front back : List ℕ) (t : ℕ) (s : σ) (hi : I s) (hq : queue s = front ++ [t] ++ back) :
    ∃ s', exec step s (List.replicate back.length e) = some s' ∧ I s' ∧
      queue s' = front ++ [t] := by
  induction back using List.reverseRecOn generalizing s with
  | nil => exact ⟨s,rfl,hi,by simpa using hq⟩
  | append_singleton back u ih =>
    obtain ⟨s1,hs1,hi1,hq1⟩ := hpop s (front ++ [t] ++ back) u hi (by simpa using hq)
    obtain ⟨s',hs',hi',hq'⟩ := ih s1 hi1 hq1
    refine ⟨s',?_,hi',hq'⟩
    rw [List.length_append, List.length_singleton, List.replicate_succ, exec, hs1,
      Option.bind_some]
    exact hs'

/-- If the queue is empty, a task that is not finished is with a timer. -/
theorem timer_pending {n : ℕ} {p : Pool} (h : Sound n p) (hq : p.queue = [])
    (hlt : p.finished.card < n) : ∃ t ∈ p.pending, t ∉ p.finished := by
  obtain ⟨t,ht,hnot⟩ := Finset.exists_mem_notMem_of_card_lt_card
    (s := p.finished) (t := Finset.range n) (by rwa [Finset.card_range])
  have hone := h.kept t (Finset.mem_range.mp ht) hnot
  rw [tokens, hq, List.count_nil, Nat.zero_add] at hone
  exact ⟨t,List.count_pos_iff.mp (by omega),hnot⟩

/-- If the last task of the queue can be taken and finished, and a timer can
expire when the queue is empty, all tasks can be finished. -/
theorem pool_completes {σ ε : Type*} (step : σ → ε → Option σ) (P : σ → ε → Prop) (n : ℕ)
    (I : σ → Prop) (q : σ → Pool) (hsound : ∀ s, I s → Sound n (q s))
    (hround : ∀ s rest t, I s → (q s).queue = rest ++ [t] → (q s).finished.card < n →
      ∃ s', Leads step P s s' ∧ I s' ∧ (q s').queue = rest ∧
        (q s').finished = insert t (q s).finished)
    (hexpire : ∀ s t, I s → (q s).queue = [] → t ∈ (q s).pending → t ∉ (q s).finished →
      ∃ s', Leads step P s s' ∧ I s' ∧ (q s').queue = [t] ∧ (q s').finished = (q s).finished)
    (s : σ) (hi : I s) : ∃ s', Leads step P s s' ∧ I s' ∧ n ≤ (q s').finished.card := by
  have hnew : ∀ (F : Finset ℕ) t, t ∉ F → F.card < n → n - (insert t F).card < n - F.card := by
    intro F t ht hlt
    rw [Finset.card_insert_of_notMem ht]
    omega
  obtain ⟨s',hl,hi',hzero⟩ := leads_descends I (fun s => n - (q s).finished.card)
    (fun s => (q s).queue.length) (fun s hi hpos => by
      have hlt : (q s).finished.card < n := by omega
      rcases List.eq_nil_or_concat (q s).queue with hnil | ⟨rest,t,hlast⟩
      · obtain ⟨t,ht,hnot⟩ := timer_pending (hsound s hi) hnil hlt
        obtain ⟨u,hsu,hu,hqu,hfu⟩ := hexpire s t hi hnil ht hnot
        obtain ⟨s',hus,hi',-,hf⟩ := hround u [] t hu hqu (hfu ▸ hlt)
        refine ⟨s',leads_trans hsu hus,hi',Or.inl ?_⟩
        rw [hf, hfu]
        exact hnew _ t hnot hlt
      · obtain ⟨s',hl,hi',hq,hf⟩ := hround s rest t hi (by simpa using hlast) hlt
        refine ⟨s',hl,hi',?_⟩
        rw [hf, hq, hlast]
        by_cases ht : t ∈ (q s).finished
        · exact Or.inr ⟨by rw [Finset.insert_eq_of_mem ht],by simp⟩
        · exact Or.inl (hnew _ t ht hlt)) s hi
  exact ⟨s',hl,hi',by omega⟩

end Mitdist.TaskPool
