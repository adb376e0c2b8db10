import Mathlib.Logic.Relation
import Mathlib.Data.List.Infix

/-!
# Runs of a deterministic event system

A system is a partial step function: an event that is not enabled has no
successor. A run is the list of its events. Invariants, conditions on the
steps of a run and forward simulations are stated once, over arbitrary
states and events, and each is reduced to one obligation about one step.
-/

set_option autoImplicit false

namespace Mitdist.TransitionSystem

variable {σ ε α : Type*} (step : σ → ε → Option σ)

def exec : σ → List ε → Option σ
  | s, [] => some s
  | s, e::es => (step s e).bind (fun s' => exec s' es)

/-- Every step of the run is taken from a state and with an event that
satisfy the condition. Nothing is required after a step that is not enabled. -/
def Meets (P : σ → ε → Prop) : σ → List ε → Prop
  | _, [] => True
  | s, e::es => P s e ∧ ∀ s', step s e = some s' → Meets P s' es

instance decidableMeets (P : σ → ε → Prop) [∀ s e, Decidable (P s e)] :
    ∀ (s : σ) (es : List ε), Decidable (Meets step P s es)
  | _, [] => .isTrue trivial
  | s, e::es =>
    match h : step s e with
    | none => decidable_of_iff (P s e) (by simp [Meets, h])
    | some s' =>
      have : Decidable (Meets step P s' es) := decidableMeets P s' es
      decidable_of_iff (P s e ∧ Meets step P s' es) (by simp [Meets, h])

theorem exec_append (es fs : List ε) (s : σ) :
    exec step s (es++fs) = (exec step s es).bind (fun s' => exec step s' fs) := by
  induction es generalizing s with
  | nil => rfl
  | cons e es ih =>
    simp only [List.cons_append, exec]
    cases step s e with
    | none => rfl
    | some s' => exact ih s'

theorem exec_cons_some (s s' : σ) (e : ε) (es : List ε)
    (h : exec step s (e::es) = some s') :
    ∃ u, step s e = some u ∧ exec step u es = some s' :=
  Option.bind_eq_some_iff.mp h

/-- A prefix of a run reaches a state, and the rest of the run starts there. -/
theorem exec_split (s s' : σ) (es fs : List ε) (hp : es <+: fs)
    (h : exec step s fs = some s') :
    ∃ u gs, exec step s es = some u ∧ exec step u gs = some s' ∧ fs = es++gs := by
  obtain ⟨gs,rfl⟩ := hp
  rw [exec_append] at h
  obtain ⟨u,hu,hg⟩ := Option.bind_eq_some_iff.mp h
  exact ⟨u,gs,hu,hg,rfl⟩

theorem meets_append (P : σ → ε → Prop) (es fs : List ε) (s : σ) :
    Meets step P s (es++fs) ↔
      Meets step P s es ∧ ∀ u, exec step s es = some u → Meets step P u fs := by
  induction es generalizing s with
  | nil => simp [Meets, exec]
  | cons e es ih =>
    simp only [List.cons_append, Meets, ih, exec, Option.bind_eq_some_iff]
    constructor
    · rintro ⟨hp,hr⟩
      refine ⟨⟨hp,fun s' hs => (hr s' hs).1⟩,?_⟩
      rintro u ⟨s',hs,hu⟩
      exact (hr s' hs).2 u hu
    · rintro ⟨⟨hp,hr⟩,hu⟩
      exact ⟨hp,fun s' hs => ⟨hr s' hs,fun u h => hu u ⟨s',hs,h⟩⟩⟩

/-- A condition that follows from another one for the events of the run. -/
theorem meets_mem (P Q : σ → ε → Prop) (es : List ε) (s : σ)
    (h : ∀ s, ∀ e ∈ es, Q s e → P s e) (hm : Meets step Q s es) : Meets step P s es := by
  induction es generalizing s with
  | nil => trivial
  | cons e es ih =>
    exact ⟨h s e (by simp) hm.1,
      fun s' hs => ih s' (fun u f hf => h u f (by simp [hf])) (hm.2 s' hs)⟩

theorem meets_true (es : List ε) (s : σ) : Meets step (fun _ _ => True) s es := by
  induction es generalizing s with
  | nil => trivial
  | cons e es ih => exact ⟨trivial,fun s' _ => ih s'⟩

theorem meets_of_mem (P : σ → ε → Prop) (es : List ε) (s : σ)
    (h : ∀ s, ∀ e ∈ es, P s e) : Meets step P s es :=
  meets_mem step P (fun _ _ => True) es s (fun u e he _ => h u e he) (meets_true step es s)

/-- The invariant rule: what every step under the condition preserves holds
in every state that a run meeting the condition reaches. -/
theorem exec_invariant (P : σ → ε → Prop) (I : σ → Prop)
    (hstep : ∀ s e s', I s → P s e → step s e = some s' → I s')
    (es : List ε) (s s' : σ) (hi : I s) (hm : Meets step P s es)
    (h : exec step s es = some s') : I s' := by
  induction es generalizing s with
  | nil => exact Option.some.inj h ▸ hi
  | cons e es ih =>
    obtain ⟨u,hu,he⟩ := exec_cons_some step s s' e es h
    exact ih u (hstep s e u hi hm.1 hu) (hm.2 u hu) he

/-- What every step preserves holds in every state that a run reaches. -/
theorem exec_always (I : σ → Prop) (hstep : ∀ s e s', I s → step s e = some s' → I s')
    (es : List ε) (s s' : σ) (hi : I s) (h : exec step s es = some s') : I s' :=
  exec_invariant step (fun _ _ => True) I (fun u e v hu _ hv => hstep u e v hu hv) es s s' hi
    (meets_true step es s) h

/-- A condition that follows from another one and an invariant. -/
theorem meets_under (P Q : σ → ε → Prop) (I : σ → Prop) (hq : ∀ s e, I s → P s e → Q s e)
    (hstep : ∀ s e s', I s → P s e → step s e = some s' → I s')
    (es : List ε) (s : σ) (hi : I s) (hm : Meets step P s es) : Meets step Q s es := by
  induction es generalizing s with
  | nil => trivial
  | cons e es ih =>
    exact ⟨hq s e hi hm.1,fun s' hs => ih s' (hstep s e s' hi hm.1 hs) (hm.2 s' hs)⟩

/-- The forward simulation rule: if every step under the condition can be
matched by finitely many abstract steps, so can every run. -/
theorem exec_simulation (P : σ → ε → Prop) (T : α → α → Prop) (R : σ → α → Prop)
    (hstep : ∀ s e s' a, R s a → P s e → step s e = some s' →
      ∃ a', Relation.ReflTransGen T a a' ∧ R s' a')
    (es : List ε) (s s' : σ) (a : α) (hr : R s a) (hm : Meets step P s es)
    (h : exec step s es = some s') : ∃ a', Relation.ReflTransGen T a a' ∧ R s' a' := by
  induction es generalizing s a with
  | nil => exact ⟨a,.refl,Option.some.inj h ▸ hr⟩
  | cons e es ih =>
    obtain ⟨u,hu,he⟩ := exec_cons_some step s s' e es h
    obtain ⟨b,hab,hb⟩ := hstep s e u a hr hm.1 hu
    obtain ⟨a',hba,ha⟩ := ih u b hb (hm.2 u hu) he
    exact ⟨a',hab.trans hba,ha⟩

end Mitdist.TransitionSystem
