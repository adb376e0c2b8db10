import Mitdist.TransitionSystem

/-!
# Reaching states by chosen events

From a state another one can be reached by events that a condition allows. If
allowed events can always lower a measure, or keep it and lower a second one,
they can lower it to zero.
-/

set_option autoImplicit false

namespace Mitdist.Progress
open Mitdist.TransitionSystem

variable {σ ε : Type*} (step : σ → ε → Option σ) (P : σ → ε → Prop)

def Leads (s s' : σ) : Prop := ∃ es, Meets step P s es ∧ exec step s es = some s'

variable {step P}

theorem leads_refl (s : σ) : Leads step P s s := ⟨[],trivial,rfl⟩

theorem leads_one {s s' : σ} (e : ε) (hp : P s e) (h : step s e = some s') : Leads step P s s' :=
  ⟨[e],⟨hp,fun _ _ => trivial⟩,by simp [exec, h]⟩

theorem leads_trans {s u s' : σ} (h : Leads step P s u) (h' : Leads step P u s') :
    Leads step P s s' := by
  obtain ⟨es,hm,he⟩ := h
  obtain ⟨fs,hm',he'⟩ := h'
  refine ⟨es ++ fs,(meets_append step P es fs s).mpr ⟨hm,fun v hv => ?_⟩,?_⟩
  · rw [he] at hv
    exact Option.some.inj hv ▸ hm'
  · rw [exec_append, he, Option.bind_some, he']

theorem leads_cons {s u s' : σ} (e : ε) (hp : P s e) (h : step s e = some u)
    (h' : Leads step P u s') : Leads step P s s' := leads_trans (leads_one e hp h) h'

theorem leads_mono {Q : σ → ε → Prop} (hq : ∀ s e, P s e → Q s e) {s s' : σ}
    (h : Leads step P s s') : Leads step Q s s' := by
  obtain ⟨es,hm,he⟩ := h
  exact ⟨es,meets_under step P Q (fun _ => True) (fun s e _ hp => hq s e hp)
    (fun _ _ _ _ _ _ => trivial) es s trivial hm,he⟩

theorem leads_keeps {s s' : σ} (I : σ → Prop)
    (hstep : ∀ s e s', I s → P s e → step s e = some s' → I s') (hi : I s)
    (h : Leads step P s s') : I s' := by
  obtain ⟨es,hm,he⟩ := h
  exact exec_invariant step P I hstep es s s' hi hm he

/-- A condition on the events alone holds of all events of the run. -/
theorem allowed_mem {Q : ε → Prop} (es : List ε) (s : σ) {s' : σ}
    (hm : Meets step (fun _ => Q) s es) (h : exec step s es = some s') : ∀ e ∈ es, Q e := by
  induction es generalizing s with
  | nil => simp
  | cons e es ih =>
    obtain ⟨u,hu,he⟩ := exec_cons_some step s s' e es h
    intro f hf
    rcases List.mem_cons.mp hf with rfl | hf
    · exact hm.1
    · exact ih u (hm.2 u hu) he f hf

/-- A bound that every step lowers bounds the length of every run. -/
theorem exec_bounded (R : σ → ℕ → Prop)
    (hstep : ∀ s m e s', R s m → step s e = some s' → ∃ k, k < m ∧ R s' k)
    (es : List ε) (s s' : σ) (m : ℕ) (hr : R s m) (h : exec step s es = some s') :
    es.length ≤ m := by
  induction es generalizing s m with
  | nil => exact Nat.zero_le m
  | cons e es ih =>
    obtain ⟨u,hu,he⟩ := exec_cons_some step s s' e es h
    obtain ⟨k,hk,hru⟩ := hstep s m e u hr hu
    have := ih u k hru he
    simp only [List.length_cons]
    omega

/-- The rule of two measures. -/
theorem leads_descends (I : σ → Prop) (μ ν : σ → ℕ)
    (h : ∀ s, I s → 0 < μ s → ∃ s', Leads step P s s' ∧ I s' ∧
      (μ s' < μ s ∨ μ s' = μ s ∧ ν s' < ν s)) (s : σ) (hi : I s) :
    ∃ s', Leads step P s s' ∧ I s' ∧ μ s' = 0 := by
  have hlex : ∀ m k s, I s → μ s = m → ν s = k → ∃ s', Leads step P s s' ∧ I s' ∧ μ s' = 0 := by
    intro m
    induction m using Nat.strong_induction_on with
    | _ m ihm =>
      intro k
      induction k using Nat.strong_induction_on with
      | _ k ihk =>
        intro s hi hm hk
        by_cases hpos : 0 < μ s
        · obtain ⟨u,hsu,hu,hlt⟩ := h s hi hpos
          obtain ⟨s',hus,hs',hzero⟩ : ∃ s', Leads step P u s' ∧ I s' ∧ μ s' = 0 := by
            rcases hlt with hlt | ⟨heq,hlt⟩
            · exact ihm (μ u) (hm ▸ hlt) (ν u) u hu rfl rfl
            · exact ihk (ν u) (hk ▸ hlt) u hu (heq.trans hm) rfl
          exact ⟨s',leads_trans hsu hus,hs',hzero⟩
        · exact ⟨s,leads_refl s,hi,by omega⟩
  exact hlex (μ s) (ν s) s hi rfl rfl

end Mitdist.Progress
