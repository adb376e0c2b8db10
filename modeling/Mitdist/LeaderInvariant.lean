import Mitdist.LeaderProtocol

/-!
# The invariant of leader-based replication

Every stored log follows the log of the leader that stamped its last entry,
and an acknowledged prefix is still stored unless a later leader was elected
without it. The second statement mentions neither commitment nor quorums, so
each step preserves it; the votes of an election carry it to the elected log.
-/

set_option autoImplicit false

namespace Mitdist.LeaderProtocol
open Mitdist.StampedLog

variable {ι E : Type*} [Stamped E]

/-- Each prefix of the log is the log of the leader that stamped its last entry. -/
def Rooted (a : History ι E) (l : List E) : Prop :=
  ∀ k e, l[k]? = some e → a.leader (stamp e) ≠ none ∧ l.take (k+1) <+: a.lead (stamp e)

/-- The first `k` entries of the leader's log end with an entry of its own term. -/
def Closed (a : History ι E) (t k : ℕ) : Prop :=
  ∃ j e, k = j+1 ∧ (a.lead t)[j]? = some e ∧ stamp e = t

structure Inv (Q : Quorums ι) (a : History ι E) : Prop where
  vote_le : ∀ i t c, a.vote i t = some c → t ≤ a.term i
  vote_cand : ∀ i t c, a.vote i t = some c → ∃ l, a.cand t c = some l
  cand_vote : ∀ t i l, a.cand t i = some l → a.vote i t = some i
  cand_lt : ∀ t i l, a.cand t i = some l → ∀ e ∈ l, stamp e < t
  cand_rooted : ∀ t i l, a.cand t i = some l → Rooted a l
  leader_cand : ∀ t i, a.leader t = some i → a.cand t i = some (a.base t)
  lead_split : ∀ t, ∃ r, a.lead t = a.base t ++ r ∧ ∀ e ∈ r, stamp e = t
  unled : ∀ t, a.leader t = none → a.lead t = []
  lead_rooted : ∀ t, Rooted a (a.lead t)
  log_rooted : ∀ i, Rooted a (a.log i)
  log_le : ∀ i, ∀ e ∈ a.log i, stamp e ≤ a.term i
  log_lead : ∀ i, a.leader (a.term i) = some i → a.log i = a.lead (a.term i)
  log_cand : ∀ i l, a.cand (a.term i) i = some l → a.leader (a.term i) = none → a.log i = l
  ack_le : ∀ i t, a.ack i t ≤ (a.lead t).length
  ack_term : ∀ i t, 0 < a.ack i t → t ≤ a.term i
  ack_log : ∀ i t k, k ≤ a.ack i t →
    (a.lead t).take k <+: a.log i ∨ Diverged a t k (a.term i+1)
  vote_ack : ∀ i u c l t k, a.vote i u = some c → a.cand u c = some l → t < u →
    Closed a t k → k ≤ a.ack i t → (a.lead t).take k <+: l ∨ Diverged a t k (u+1)
  elect_ack : ∀ u c, a.leader u = some c → ∃ q, Q.IsQuorum q ∧ ∀ j ∈ q, a.vote j u = some c ∧
    ∀ t k, t < u → Closed a t k → k ≤ a.ack j t →
      (a.lead t).take k <+: a.base u ∨ Diverged a t k u

theorem rooted_nil (a : History ι E) : Rooted a [] := by
  intro k e h
  simp at h

theorem rooted_take (a : History ι E) (l : List E) (j : ℕ) (h : Rooted a l) :
    Rooted a (l.take j) := by
  intro k e he
  have hk : k < j := by
    by_contra hc
    rw [List.getElem?_take, if_neg hc] at he
    simp at he
  rw [List.getElem?_take, if_pos hk] at he
  obtain ⟨hl,hp⟩ := h k e he
  exact ⟨hl,by rwa [List.take_take, min_eq_left (by omega)]⟩

theorem rooted_below (a : History ι E) (l m : List E) (hm : Rooted a m) (h : l <+: m) :
    Rooted a l := by
  rw [List.prefix_iff_eq_take.mp h]
  exact rooted_take a m _ hm

theorem inv_initial (Q : Quorums ι) : Inv Q (initial : History ι E) where
  vote_le _ _ _ hv := by simp [initial] at hv
  vote_cand _ _ _ hv := by simp [initial] at hv
  cand_vote _ _ _ hc := by simp [initial] at hc
  cand_lt _ _ _ hc := by simp [initial] at hc
  cand_rooted _ _ _ hc := by simp [initial] at hc
  leader_cand _ _ hl := by simp [initial] at hl
  lead_split _ := ⟨[],by simp [initial],by simp⟩
  unled _ _ := rfl
  lead_rooted _ := rooted_nil _
  log_rooted _ := rooted_nil _
  log_le _ e he := by simp [initial] at he
  log_lead _ hl := by simp [initial] at hl
  log_cand _ _ hc := by simp [initial] at hc
  ack_le _ _ := le_rfl
  ack_term _ _ ha := by simp [initial] at ha
  ack_log _ _ _ _ := Or.inl (by simp [initial])
  vote_ack _ _ _ _ _ _ hv := by simp [initial] at hv
  elect_ack _ _ hl := by simp [initial] at hl

/-- Log matching: two rooted logs with equal stamps at a position agree up to it. -/
theorem rooted_agree (a : History ι E) (l m : List E) (hl : Rooted a l) (hm : Rooted a m)
    (k : ℕ) (hkl : k ≤ l.length) (hkm : k ≤ m.length) (hs : stampAt l k = stampAt m k) :
    l.take k = m.take k := by
  cases k with
  | zero => simp
  | succ k =>
    obtain ⟨d,hd,hds⟩ := getElem_stamp_at l k hkl
    obtain ⟨e,he,hes⟩ := getElem_stamp_at m k hkm
    have hde : stamp d = stamp e := by rw [hds, hes, hs]
    have h1 := (hl k d hd).2
    have h2 := (hm k e he).2
    rw [hde] at h1
    have hlen : (l.take (k+1)).length = (m.take (k+1)).length := by simp; omega
    exact (List.prefix_of_prefix_length_le h1 h2 (le_of_eq hlen)).eq_of_length hlen

theorem rooted_grows (a b : History ι E) (hg : Grows a b) (l : List E) (h : Rooted a l) :
    Rooted b l := by
  intro k e he
  obtain ⟨hl,hp⟩ := h k e he
  obtain ⟨j,hj⟩ := Option.ne_none_iff_exists'.mp hl
  refine ⟨?_,hp.trans (hg.lead _)⟩
  rw [(hg.leader _ j hj).1]
  simp

theorem rooted_last (a : History ι E) (l : List E) (hr : Rooted a l) (hl : l ≠ []) :
    a.leader (lastStamp l) ≠ none ∧ l <+: a.lead (lastStamp l) ∧
      ∃ e, (a.lead (lastStamp l))[l.length-1]? = some e ∧ stamp e = lastStamp l := by
  have hpos : 0 < l.length := List.length_pos_iff.mpr hl
  obtain ⟨e,he,hes⟩ := getElem_stamp_at l (l.length-1) (by omega)
  have hn : l.length-1+1 = l.length := by omega
  rw [hn] at hes
  have hsl : stamp e = lastStamp l := hes
  obtain ⟨h1,h2⟩ := hr _ e he
  rw [hn, List.take_length, hsl] at h2
  rw [hsl] at h1
  refine ⟨h1,h2,e,?_,hsl⟩
  obtain ⟨r,hr⟩ := h2
  rw [← hr, List.getElem?_append_left (by omega), he]

section
variable {Q : Quorums ι} {a : History ι E} (h : Inv Q a)
include h

theorem vote_fresh (i : ι) (t : ℕ) (ht : a.term i < t) : a.vote i t = none := by
  cases hv : a.vote i t with
  | none => rfl
  | some c =>
    have := h.vote_le i t c hv
    omega

theorem cand_fresh (i : ι) (t : ℕ) (ht : a.term i < t) : a.cand t i = none := by
  cases hc : a.cand t i with
  | none => rfl
  | some l =>
    have := h.vote_le i t i (h.cand_vote t i l hc)
    omega

theorem base_below (t : ℕ) : a.base t <+: a.lead t := by
  obtain ⟨r,hr,-⟩ := h.lead_split t
  exact ⟨r,hr.symm⟩

theorem base_lt (t : ℕ) (e : E) (he : e ∈ a.base t) : stamp e < t := by
  cases hl : a.leader t with
  | none =>
    have hb := base_below h t
    rw [h.unled t hl, List.prefix_nil] at hb
    simp [hb] at he
  | some i => exact h.cand_lt t i _ (h.leader_cand t i hl) e he

theorem lead_le (t : ℕ) (e : E) (he : e ∈ a.lead t) : stamp e ≤ t := by
  obtain ⟨r,hr,hs⟩ := h.lead_split t
  rw [hr, List.mem_append] at he
  rcases he with hb | hr
  · exact le_of_lt (base_lt h t e hb)
  · exact le_of_eq (hs e hr)

/-- An entry of the leader's own term lies beyond the log it was elected with. -/
theorem own_beyond_base (t k : ℕ) (e : E) (he : (a.lead t)[k]? = some e) (hs : stamp e = t) :
    (a.base t).length ≤ k := by
  by_contra hc
  obtain ⟨r,hr,-⟩ := h.lead_split t
  rw [hr, List.getElem?_append_left (by omega)] at he
  have := base_lt h t e (List.mem_of_getElem? he)
  omega

theorem rooted_le_last (l : List E) (hr : Rooted a l) (e : E) (he : e ∈ l) :
    stamp e ≤ lastStamp l := by
  obtain ⟨-,h2,-⟩ := rooted_last a l hr (List.ne_nil_of_mem he)
  exact lead_le h _ e (h2.mem he)

/-- The vote comparison hands an acknowledged prefix to the candidate, or
exhibits the leader that was elected without it. -/
theorem up_to_date_carries (i c : ι) (l : List E) (u t k : ℕ)
    (hc : a.cand u c = some l) (hu : UpToDate l (a.log i)) (htk : Closed a t k)
    (hp : (a.lead t).take k <+: a.log i) :
    (a.lead t).take k <+: l ∨ Diverged a t k u := by
  obtain ⟨j,e,rfl,hj,he⟩ := htk
  have hjl : j < (a.lead t).length := (List.getElem?_eq_some_iff.mp hj).1
  have hlen : ((a.lead t).take (j+1)).length = j+1 := by simp; omega
  have hmem : e ∈ a.log i := by
    apply hp.mem
    apply List.mem_of_getElem? (i := j)
    rw [List.getElem?_take, if_pos (by omega), hj]
  have hlog : t ≤ lastStamp (a.log i) := he ▸ rooted_le_last h _ (h.log_rooted i) e hmem
  have hll := hp.length_le
  have hl : l ≠ [] := by
    rintro rfl
    rcases hu with hu | ⟨-,hu⟩
    · simp [lastStamp, stampAt] at hu
    · simp only [List.length_nil, Nat.le_zero] at hu
      omega
  obtain ⟨hlead,hpre,d,hd,hds⟩ := rooted_last a l (h.cand_rooted u c l hc) hl
  have hsu : lastStamp l < u := by
    obtain ⟨r,hr⟩ := hpre
    have hpos : 0 < l.length := List.length_pos_iff.mpr hl
    rw [← hr, List.getElem?_append_left (by omega)] at hd
    exact hds ▸ h.cand_lt u c l hc d (List.mem_of_getElem? hd)
  rcases eq_or_lt_of_le (show t ≤ lastStamp l by rcases hu with hu | hu <;> omega) with hts | hts
  · left
    have hle : (a.log i).length ≤ l.length := by
      rcases hu with hu | hu
      · omega
      · exact hu.2
    rw [hts]
    rw [hts] at hlen hll
    have htake : (a.lead (lastStamp l)).take (j+1) <+: a.lead (lastStamp l) := List.take_prefix _ _
    exact List.prefix_of_prefix_length_le htake hpre (by omega)
  · by_cases hb : (a.lead t).take (j+1) <+: a.base (lastStamp l)
    · left
      have hbl := own_beyond_base h _ _ d hd hds
      have hbk := hb.length_le
      exact List.prefix_of_prefix_length_le (hb.trans (base_below h _)) hpre (by omega)
    · exact Or.inr ⟨lastStamp l,hts,hsu,hlead,hb⟩

end

section
variable {Q : Quorums ι} {a b : History ι E} (h : Inv Q a) (hg : Grows a b)
include hg

theorem closed_back (t k : ℕ) (hk : k ≤ (a.lead t).length) (hc : Closed b t k) : Closed a t k := by
  obtain ⟨j,e,rfl,hj,he⟩ := hc
  obtain ⟨r,hr⟩ := hg.lead t
  rw [← hr, List.getElem?_append_left (by omega)] at hj
  exact ⟨j,e,rfl,hj,he⟩

theorem closed_grows (t k : ℕ) (hc : Closed a t k) : Closed b t k := by
  obtain ⟨j,e,rfl,hj,he⟩ := hc
  obtain ⟨r,hr⟩ := hg.lead t
  have hlt : j < (a.lead t).length := (List.getElem?_eq_some_iff.mp hj).1
  exact ⟨j,e,rfl,by rw [← hr, List.getElem?_append_left hlt, hj],he⟩

include h

theorem ack_log_keep (j : ι) (t k : ℕ) (hlog : a.log j <+: b.log j) (hk : k ≤ a.ack j t) :
    (b.lead t).take k <+: b.log j ∨ Diverged b t k (b.term j+1) := by
  have hle := hk.trans (h.ack_le j t)
  rcases h.ack_log j t k hk with hp | hd
  · exact Or.inl (by rw [take_grows hg t k hle]; exact hp.trans hlog)
  · exact Or.inr (diverged_grows hg t k _ _ hle (by have := hg.term j; omega) hd)

theorem vote_ack_keep (hack : ∀ j t, t < a.term j → b.ack j t = a.ack j t)
    (i : ι) (u : ℕ) (c : ι) (l : List E) (t k : ℕ) (hv : a.vote i u = some c)
    (hc : b.cand u c = some l) (htu : t < u) (hcl : Closed b t k) (hk : k ≤ b.ack i t) :
    (b.lead t).take k <+: l ∨ Diverged b t k (u+1) := by
  obtain ⟨m,hm⟩ := h.vote_cand i u c hv
  obtain rfl : m = l := Option.some.inj ((hg.cand u c m hm).symm.trans hc)
  have hu := h.vote_le i u c hv
  rw [hack i t (by omega)] at hk
  have hle := hk.trans (h.ack_le i t)
  rcases h.vote_ack i u c m t k hv hm htu (closed_back hg t k hle hcl) hk with hp | hd
  · exact Or.inl (by rwa [take_grows hg t k hle])
  · exact Or.inr (diverged_grows hg t k _ _ hle le_rfl hd)

theorem elect_ack_keep (hack : ∀ j t, t < a.term j → b.ack j t = a.ack j t)
    (u : ℕ) (c : ι) (hl : a.leader u = some c) :
    ∃ q, Q.IsQuorum q ∧ ∀ j ∈ q, b.vote j u = some c ∧
      ∀ t k, t < u → Closed b t k → k ≤ b.ack j t →
        (b.lead t).take k <+: b.base u ∨ Diverged b t k u := by
  obtain ⟨q,hq,hj⟩ := h.elect_ack u c hl
  refine ⟨q,hq,fun j hjq => ⟨hg.vote j u c (hj j hjq).1,fun t k htu hcl hk => ?_⟩⟩
  obtain ⟨hv,hacks⟩ := hj j hjq
  have hu := h.vote_le j u c hv
  rw [hack j t (by omega)] at hk
  have hle := hk.trans (h.ack_le j t)
  rw [(hg.leader u c hl).2, take_grows hg t k hle]
  rcases hacks t k htu (closed_back hg t k hle hcl) hk with hp | hd
  · exact Or.inl hp
  · exact Or.inr (diverged_grows hg t k _ _ hle le_rfl hd)

end

end Mitdist.LeaderProtocol
