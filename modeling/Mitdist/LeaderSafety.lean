import Mitdist.LeaderStep

/-!
# Safety of leader-based replication

A prefix that ends in an entry of its leader's term and that a quorum
acknowledged in that term is below the log of every later leader. Prefixes
of such a prefix are settled: any two of them are comparable, and no merge
of a leader's prefix removes one from a log.
-/

set_option autoImplicit false

namespace Mitdist.LeaderProtocol
open Mitdist.StampedLog

variable {ι E : Type*} [Stamped E] {Q : Quorums ι} {a b : History ι E}

def Chosen (Q : Quorums ι) (a : History ι E) (t k : ℕ) : Prop :=
  Closed a t k ∧ ∃ q, Q.IsQuorum q ∧ ∀ j ∈ q, k ≤ a.ack j t

def Settled (Q : Quorums ι) (a : History ι E) (t : ℕ) (p : List E) : Prop :=
  p = [] ∨ ∃ s k, s ≤ t ∧ Chosen Q a s k ∧ p <+: (a.lead s).take k

theorem closed_length (t k : ℕ) (h : Closed a t k) : k ≤ (a.lead t).length := by
  obtain ⟨j,e,rfl,hj,-⟩ := h
  exact (List.getElem?_eq_some_iff.mp hj).1

/-- Leader completeness, by strong induction on the later term: the two
quorums share a server, which acknowledged the prefix before it voted. -/
theorem chosen_below_base (h : Inv Q a) (t k : ℕ) (hc : Chosen Q a t k) (u : ℕ) (htu : t < u)
    (hu : a.leader u ≠ none) : (a.lead t).take k <+: a.base u := by
  induction u using Nat.strong_induction_on with
  | _ u ih =>
    obtain ⟨c,hlc⟩ := Option.ne_none_iff_exists'.mp hu
    obtain ⟨hcl,q,hq,hack⟩ := hc
    obtain ⟨p,hp,hvotes⟩ := h.elect_ack u c hlc
    obtain ⟨j,hjp,hjq⟩ := Q.meet p q hp hq
    rcases (hvotes j hjp).2 t k htu hcl (hack j hjq) with hb | ⟨s,hts,hsu,hls,hn⟩
    · exact hb
    · exact absurd (ih s hsu hts hls) hn

theorem chosen_grows (hg : Grows a b) (t k : ℕ) (hc : Chosen Q a t k) :
    Chosen Q b t k := by
  obtain ⟨hcl,q,hq,hack⟩ := hc
  exact ⟨closed_grows hg t k hcl,q,hq,fun j hj => (hack j hj).trans (hg.ack j t)⟩

theorem settled_grows (hg : Grows a b) (t u : ℕ) (p : List E) (htu : t ≤ u)
    (hs : Settled Q a t p) : Settled Q b u p := by
  rcases hs with rfl | ⟨s,k,hst,hc,hp⟩
  · exact Or.inl rfl
  · refine Or.inr ⟨s,k,hst.trans htu,chosen_grows hg s k hc,?_⟩
    rwa [take_grows hg s k (closed_length s k hc.1)]

theorem settled_below (t : ℕ) (p r : List E) (hs : Settled Q a t p) (hr : r <+: p) :
    Settled Q a t r := by
  rcases hs with rfl | ⟨s,k,hst,hc,hp⟩
  · exact Or.inl (List.prefix_nil.mp hr)
  · exact Or.inr ⟨s,k,hst,hc,hr.trans hp⟩

theorem settled_base (h : Inv Q a) (t u : ℕ) (p : List E) (hs : Settled Q a t p) (htu : t < u)
    (hu : a.leader u ≠ none) : p <+: a.base u := by
  rcases hs with rfl | ⟨s,k,hst,hc,hp⟩
  · exact List.nil_prefix
  · exact hp.trans (chosen_below_base h s k hc u (by omega) hu)

/-- A settled prefix lies below the log of every leader from its term on. -/
theorem settled_lead (h : Inv Q a) (t u : ℕ) (p : List E) (hs : Settled Q a t p) (htu : t ≤ u)
    (hu : a.leader u ≠ none) : p <+: a.lead u := by
  rcases eq_or_lt_of_le htu with rfl | hlt
  · rcases hs with rfl | ⟨s,k,hst,hc,hp⟩
    · exact List.nil_prefix
    · rcases eq_or_lt_of_le hst with rfl | hsu
      · exact hp.trans <| List.take_prefix _ _
      · exact (hp.trans (chosen_below_base h s k hc _ hsu hu)).trans (base_below h _)
  · exact (settled_base h t u p hs hlt hu).trans (base_below h u)

theorem settled_comparable (h : Inv Q a) (t u : ℕ) (p r : List E) (hp : Settled Q a t p)
    (hr : Settled Q a u r) : p <+: r ∨ r <+: p := by
  rcases hp with rfl | ⟨s,k,-,hc,hp⟩
  · exact Or.inl List.nil_prefix
  rcases hr with rfl | ⟨s',k',-,hc',hr⟩
  · exact Or.inr List.nil_prefix
  have lead_some : ∀ s k, Chosen Q a s k → a.leader s ≠ none := by
    intro s k hc hn
    obtain ⟨j,e,-,hj,-⟩ := hc.1
    simp [h.unled s hn] at hj
  have key : ∀ s s' k k' (p r : List E), s ≤ s' → Chosen Q a s k → Chosen Q a s' k' →
      p <+: (a.lead s).take k → r <+: (a.lead s').take k' → p <+: r ∨ r <+: p := by
    intro s s' k k' p r hss hc hc' hp hr
    have hp' := settled_lead h s s' p (Or.inr ⟨s,k,le_rfl,hc,hp⟩) hss (lead_some s' k' hc')
    exact List.prefix_or_prefix_of_prefix hp' <| hr.trans <| List.take_prefix _ _
  rcases le_total s s' with hss | hss
  · exact key s s' k k' p r hss hc hc' hp hr
  · exact (key s' s k' k r p hss hc' hc hr hp).symm

theorem settled_agree (h : Inv Q a) (t u : ℕ) (p r : List E) (hp : Settled Q a t p)
    (hr : Settled Q a u r) (k : ℕ) (d e : E) (hd : p[k]? = some d) (he : r[k]? = some e) :
    d = e := by
  have key : ∀ (p r : List E) (d e : E), p <+: r → p[k]? = some d → r[k]? = some e → d = e := by
    rintro p r d e ⟨x,rfl⟩ hd he
    have hk : k < p.length := (List.getElem?_eq_some_iff.mp hd).1
    rw [List.getElem?_append_left hk, hd] at he
    exact Option.some.inj he
  rcases settled_comparable h t u p r hp hr with hpr | hrp
  · exact key p r d e hpr hd he
  · exact (key r p e d hrp he hd).symm

/-- An acknowledged prefix that is settled is stored by the server that
acknowledged it, whatever term it has reached since. -/
theorem settled_stored (h : Inv Q a) (t k : ℕ) (hs : Settled Q a t ((a.lead t).take k)) (j : ι)
    (hj : k ≤ a.ack j t) : (a.lead t).take k <+: a.log j := by
  rcases h.ack_log j t k hj with hp | ⟨s,hts,-,hls,hn⟩
  · exact hp
  · exact absurd (settled_base h t s _ hs hts hls) hn

section
variable [DecidableEq ι] {i : ι}

/-- A settled prefix of a server's log stays in it. -/
theorem settled_step (h : Inv Q a) (hs : Step Q i a b) (p : List E)
    (hp : Settled Q a (a.term i) p) (hl : p <+: a.log i) : p <+: b.log i := by
  cases hs with
  | append e hlead he =>
    simp only [appended, Function.update_self]
    exact hl.trans <| List.prefix_append _ _
  | accept m j hlead hj hm =>
    simp only [accepted, Function.update_self]
    exact merge_keeps _ m p _ hl (settled_lead h _ _ p hp le_rfl (by simp [hlead])) hm
  | _ => exact hl

theorem settled_steps (h : Inv Q a) (hs : Steps Q i a b) (p : List E)
    (hp : Settled Q a (a.term i) p) (hl : p <+: a.log i) : p <+: b.log i := by
  induction hs with
  | refl => exact hl
  | tail hab hbc ih =>
    obtain ⟨hinv,hg,-⟩ := steps_inv h hab
    exact settled_step hinv hbc p (settled_grows hg _ _ p (hg.term i) hp) ih

end

end Mitdist.LeaderProtocol
