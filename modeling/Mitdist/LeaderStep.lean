import Mitdist.LeaderInvariant

/-!
# Preservation by the steps of the protocol

A step moves only its own server and lets every recorded fact stand. The
invariant is then re-established field by field, where only the fields that
the step writes need an argument.
-/

set_option autoImplicit false

namespace Mitdist.LeaderProtocol
open Mitdist.StampedLog

variable {ι E : Type*} [DecidableEq ι] [Stamped E] {Q : Quorums ι} {a b : History ι E} {i : ι}

theorem set2_same {α β γ : Type*} [DecidableEq α] [DecidableEq β] (f : α → β → γ)
    (x : α) (y : β) (c : γ) : set2 f x y c x y = c := by
  simp [set2]

theorem set2_other {α β γ : Type*} [DecidableEq α] [DecidableEq β] (f : α → β → γ)
    (x u : α) (y v : β) (c : γ) (h : u ≠ x ∨ v ≠ y) : set2 f x y c u v = f u v := by
  unfold set2
  rw [if_neg]
  rintro ⟨rfl,rfl⟩
  simp at h

theorem set2_row {α β γ : Type*} [DecidableEq α] [DecidableEq β] (f : α → β → γ)
    (x u : α) (y : β) (c : γ) (h : u ≠ x) : set2 f x y c u = f u := by
  funext v
  exact set2_other f x u y v c (Or.inl h)

theorem set2_cases {α β γ : Type*} [DecidableEq α] [DecidableEq β] (f : α → β → γ)
    (x u : α) (y v : β) (c d : γ) (h : set2 f x y c u v = d) :
    u = x ∧ v = y ∧ c = d ∨ (u ≠ x ∨ v ≠ y) ∧ f u v = d := by
  by_cases hxy : u = x ∧ v = y
  · obtain ⟨rfl,rfl⟩ := hxy
    rw [set2_same] at h
    exact Or.inl ⟨rfl,rfl,h⟩
  · have hne : u ≠ x ∨ v ≠ y := by
      by_contra hc
      push Not at hc
      exact hxy hc
    rw [set2_other f x u y v c hne] at h
    exact Or.inr ⟨hne,h⟩

theorem step_frame (hs : Step Q i a b) : Frame i a b := by
  cases hs with
  | raise t ht => exact ⟨fun j hj => by simp [raised, hj],fun _ _ => rfl,fun _ _ => rfl,
      fun _ _ => rfl,fun _ _ => rfl,fun t j hj h => ⟨h,rfl⟩⟩
  | stand => exact ⟨fun j hj => by simp [stood, hj],fun _ _ => rfl,
      fun j hj => by simp [stood, set2_row _ _ _ _ _ hj],fun _ _ => rfl,fun _ _ => rfl,
      fun t j hj h => ⟨h,rfl⟩⟩
  | grant c l hv hc hu => exact ⟨fun _ _ => rfl,fun _ _ => rfl,
      fun j hj => by simp [granted, set2_row _ _ _ _ _ hj],fun _ _ => rfl,fun _ _ => rfl,
      fun t j hj h => ⟨h,rfl⟩⟩
  | elect l q hc hn hq hv =>
    refine ⟨fun _ _ => rfl,fun _ _ => rfl,fun _ _ => rfl,fun _ _ => rfl,fun _ _ => rfl,?_⟩
    intro t j hj h
    by_cases ht : t = a.term i
    · subst ht
      simp [elected, hj.symm] at h
    · simpa [elected, ht] using h
  | append e hl he =>
    refine ⟨fun _ _ => rfl,fun j hj => by simp [appended, hj],fun _ _ => rfl,fun _ _ => rfl,
      fun _ _ => rfl,?_⟩
    intro t j hj h
    have ht : t ≠ a.term i := by
      rintro rfl
      exact hj (Option.some.inj (h.symm.trans hl))
    exact ⟨h,by simp [appended, ht]⟩
  | accept m j hl hj hm => exact ⟨fun _ _ => rfl,fun j hj => by simp [accepted, hj],fun _ _ => rfl,
      fun _ _ => rfl,fun _ _ => rfl,fun t j hj h => ⟨h,rfl⟩⟩
  | confirm k hk hp => exact ⟨fun _ _ => rfl,fun _ _ => rfl,fun _ _ => rfl,
      fun j hj => by simp [confirmed, set2_row _ _ _ _ _ hj],fun _ _ => rfl,
      fun t j hj h => ⟨h,rfl⟩⟩
  | hollow k => exact ⟨fun _ _ => rfl,fun _ _ => rfl,fun _ _ => rfl,fun _ _ => rfl,
      fun j hj => by simp [hollowed, set2_row _ _ _ _ _ hj],fun t j hj h => ⟨h,rfl⟩⟩

theorem step_grows (h : Inv Q a) (hs : Step Q i a b) : Grows a b := by
  cases hs with
  | raise t ht =>
    refine { grows_refl a with term := fun j => ?_ }
    by_cases hj : j = i
    · subst hj
      simpa [raised] using le_of_lt ht
    · simp [raised, hj]
  | stand =>
    refine { grows_refl a with
      term := fun j => ?_, vote := fun j t c hv => ?_, cand := fun t j l hc => ?_ }
    · by_cases hj : j = i
      · subst hj
        simp [stood]
      · simp [stood, hj]
    · have hne : j ≠ i ∨ t ≠ a.term i+1 := by
        by_contra hc
        push Not at hc
        obtain ⟨rfl,rfl⟩ := hc
        simp [vote_fresh h _ _ (Nat.lt_succ_self _)] at hv
      simpa [stood, set2_other _ _ _ _ _ _ hne] using hv
    · have hne : t ≠ a.term i+1 ∨ j ≠ i := by
        by_contra hn
        push Not at hn
        obtain ⟨rfl,rfl⟩ := hn
        simp [cand_fresh h _ _ (Nat.lt_succ_self _)] at hc
      simpa [stood, set2_other _ _ _ _ _ _ hne] using hc
  | grant c l hv hc hu =>
    refine { grows_refl a with vote := fun j t d hd => ?_ }
    by_cases hne : j = i ∧ t = a.term i
    · obtain ⟨rfl,rfl⟩ := hne
      rw [hd] at hv
      simpa [granted, set2_same, eq_comm] using hv
    · have : j ≠ i ∨ t ≠ a.term i := by
        by_contra hn
        push Not at hn
        exact hne hn
      simpa [granted, set2_other _ _ _ _ _ _ this] using hd
  | elect l q hc hn hq hv =>
    refine { grows_refl a with leader := fun t j hl => ?_, lead := fun t => ?_ }
    · have ht : t ≠ a.term i := by
        rintro rfl
        simp [hn] at hl
      simp [elected, ht, hl]
    · by_cases ht : t = a.term i
      · subst ht
        simp [h.unled _ hn]
      · simp [elected, ht]
  | append e hl he =>
    refine { grows_refl a with lead := fun t => ?_ }
    by_cases ht : t = a.term i
    · subst ht
      simp [appended]
    · simp [appended, ht]
  | accept m j hl hj hm => exact { grows_refl a with }
  | confirm k hk hp =>
    refine { grows_refl a with ack := fun j t => ?_ }
    simp only [confirmed, set2]
    split_ifs with hc
    · rw [hc.1, hc.2]
      exact le_max_left _ _
    · exact le_rfl
  | hollow k =>
    refine { grows_refl a with hollow := fun j t => ?_ }
    simp only [hollowed, set2]
    split_ifs with hc
    · rw [hc.1, hc.2]
      exact le_max_left _ _
    · exact le_rfl

theorem step_ack (hs : Step Q i a b) (j : ι) (t : ℕ) (ht : t < a.term j) :
    b.ack j t = a.ack j t := by
  cases hs with
  | confirm k hk hp =>
    have hne : j ≠ i ∨ t ≠ a.term i := by
      by_contra hc
      push Not at hc
      obtain ⟨rfl,rfl⟩ := hc
      omega
    simp [confirmed, set2_other _ _ _ _ _ _ hne]
  | _ => rfl

theorem inv_raised (h : Inv Q a) (t : ℕ) (ht : a.term i < t) : Inv Q (raised a i t) := by
  have hs : Step Q i a (raised a i t) := .raise a t ht
  have hg := step_grows h hs
  have hack := step_ack hs
  have hne : ∀ j, (raised a i t).leader ((raised a i t).term j) = some j → j ≠ i := by
    rintro j hl rfl
    have hl' : a.leader t = some j := by simpa [raised] using hl
    have := h.vote_le j t j (h.cand_vote t j _ (h.leader_cand t j hl'))
    omega
  exact
    { h with
      vote_le := fun j u c hv => (h.vote_le j u c hv).trans (hg.term j)
      cand_rooted := fun u j l hc => rooted_grows a _ hg l (h.cand_rooted u j l hc)
      lead_rooted := fun u => rooted_grows a _ hg _ (h.lead_rooted u)
      log_rooted := fun j => rooted_grows a _ hg _ (h.log_rooted j)
      log_le := fun j e he => (h.log_le j e he).trans (hg.term j)
      log_lead := fun j hl => by
        have hj := hne j hl
        simp only [raised, Function.update_of_ne hj] at hl ⊢
        exact h.log_lead j hl
      log_cand := fun j l hc hn => by
        by_cases hj : j = i
        · subst hj
          simp [raised, cand_fresh h j t ht] at hc
        · simp only [raised, Function.update_of_ne hj] at hc hn
          exact h.log_cand j l hc hn
      ack_term := fun j u ha => (h.ack_term j u ha).trans (hg.term j)
      ack_log := fun j u k hk => ack_log_keep h hg j u k List.prefix_rfl hk
      vote_ack := fun j u c l s k hv => vote_ack_keep h hg hack j u c l s k hv
      elect_ack := fun u c hl => elect_ack_keep h hg hack u c hl }

theorem inv_stood (h : Inv Q a) : Inv Q (stood a i) := by
  have hs : Step Q i a (stood a i) := .stand a
  have hg := step_grows h hs
  have hack := step_ack hs
  have hne : ∀ j, (stood a i).leader ((stood a i).term j) = some j → j ≠ i := by
    rintro j hl rfl
    have hl' : a.leader (a.term j+1) = some j := by simpa [stood] using hl
    have := h.vote_le j _ j (h.cand_vote _ j _ (h.leader_cand _ j hl'))
    omega
  exact
    { vote_le := fun j u c hv => by
        rcases set2_cases _ _ _ _ _ _ _ hv with ⟨rfl,rfl,-⟩ | ⟨-,hv⟩
        · simp [stood]
        · exact (h.vote_le j u c hv).trans (hg.term j)
      vote_cand := fun j u c hv => by
        rcases set2_cases _ _ _ _ _ _ _ hv with ⟨rfl,rfl,hc⟩ | ⟨-,hv⟩
        · obtain rfl := Option.some.inj hc
          exact ⟨a.log j,by simp [stood, set2_same]⟩
        · obtain ⟨l,hl⟩ := h.vote_cand j u c hv
          exact ⟨l,hg.cand u c l hl⟩
      cand_vote := fun u j l hc => by
        rcases set2_cases _ _ _ _ _ _ _ hc with ⟨rfl,rfl,-⟩ | ⟨-,hc⟩
        · simp [stood, set2_same]
        · exact hg.vote j u j (h.cand_vote u j l hc)
      cand_lt := fun u j l hc e he => by
        rcases set2_cases _ _ _ _ _ _ _ hc with ⟨rfl,rfl,hl⟩ | ⟨-,hc⟩
        · obtain rfl := Option.some.inj hl
          exact Nat.lt_succ_of_le (h.log_le j e he)
        · exact h.cand_lt u j l hc e he
      cand_rooted := fun u j l hc => by
        rcases set2_cases _ _ _ _ _ _ _ hc with ⟨rfl,rfl,hl⟩ | ⟨-,hc⟩
        · obtain rfl := Option.some.inj hl
          exact rooted_grows a _ hg _ (h.log_rooted j)
        · exact rooted_grows a _ hg l (h.cand_rooted u j l hc)
      leader_cand := fun u j hl => hg.cand u j _ (h.leader_cand u j hl)
      lead_split := h.lead_split
      unled := h.unled
      lead_rooted := fun u => rooted_grows a _ hg _ (h.lead_rooted u)
      log_rooted := fun j => rooted_grows a _ hg _ (h.log_rooted j)
      log_le := fun j e he => (h.log_le j e he).trans (hg.term j)
      log_lead := fun j hl => by
        have hj := hne j hl
        simp only [stood, Function.update_of_ne hj] at hl ⊢
        exact h.log_lead j hl
      log_cand := fun j l hc hn => by
        by_cases hj : j = i
        · subst hj
          simpa [stood, set2_same] using hc
        · simp only [stood, Function.update_of_ne hj] at hc hn
          rw [set2_other _ _ _ _ _ _ (Or.inr hj)] at hc
          exact h.log_cand j l hc hn
      ack_le := h.ack_le
      ack_term := fun j u ha => (h.ack_term j u ha).trans (hg.term j)
      ack_log := fun j u k hk => ack_log_keep h hg j u k List.prefix_rfl hk
      vote_ack := fun j u c l t k hv hc htu hcl hk => by
        rcases set2_cases _ _ _ _ _ _ _ hv with ⟨rfl,rfl,hjc⟩ | ⟨-,hv⟩
        · obtain rfl := Option.some.inj hjc
          have hl : a.log j = l := by simpa [stood, set2_same] using hc
          subst hl
          rcases h.ack_log j t k hk with hp | hd
          · exact Or.inl hp
          · exact Or.inr (diverged_grows hg t k _ _ (hk.trans (h.ack_le j t)) (by omega) hd)
        · exact vote_ack_keep h hg hack j u c l t k hv hc htu hcl hk
      elect_ack := fun u c hl => elect_ack_keep h hg hack u c hl }

theorem inv_granted (h : Inv Q a) (c : ι) (l : List E)
    (hv : a.vote i (a.term i) = none ∨ a.vote i (a.term i) = some c)
    (hc : a.cand (a.term i) c = some l) (hu : UpToDate l (a.log i)) : Inv Q (granted a i c) := by
  have hs : Step Q i a (granted a i c) := .grant a c l hv hc hu
  have hg := step_grows h hs
  have hack := step_ack hs
  exact
    { h with
      vote_le := fun j u d hd => by
        rcases set2_cases _ _ _ _ _ _ _ hd with ⟨rfl,rfl,-⟩ | ⟨-,hd⟩
        · exact le_rfl
        · exact h.vote_le j u d hd
      vote_cand := fun j u d hd => by
        rcases set2_cases _ _ _ _ _ _ _ hd with ⟨rfl,rfl,hcd⟩ | ⟨-,hd⟩
        · obtain rfl := Option.some.inj hcd
          exact ⟨l,hc⟩
        · exact h.vote_cand j u d hd
      cand_vote := fun u j m hm => hg.vote j u j (h.cand_vote u j m hm)
      vote_ack := fun j u d m t k hd hm htu hcl hk => by
        rcases set2_cases _ _ _ _ _ _ _ hd with ⟨rfl,rfl,hcd⟩ | ⟨-,hd⟩
        · obtain rfl := Option.some.inj hcd
          obtain rfl : l = m := Option.some.inj (hc.symm.trans hm)
          rcases h.ack_log j t k hk with hp | hd
          · rcases up_to_date_carries h j c l _ t k hc hu hcl hp with hp | hd
            · exact Or.inl hp
            · exact Or.inr (diverged_grows hg t k _ _ (hk.trans (h.ack_le j t)) (by omega) hd)
          · exact Or.inr hd
        · exact vote_ack_keep h hg hack j u d m t k hd hm htu hcl hk
      elect_ack := fun u d hl => elect_ack_keep h hg hack u d hl }

theorem inv_elected (h : Inv Q a) (l : List E) (q : Set ι)
    (hc : a.cand (a.term i) i = some l) (hn : a.leader (a.term i) = none)
    (hq : Q.IsQuorum q) (hv : ∀ j ∈ q, a.vote j (a.term i) = some i) : Inv Q (elected a i l) := by
  have hs : Step Q i a (elected a i l) := .elect a l q hc hn hq hv
  have hg := step_grows h hs
  have hack := step_ack hs
  have hlog := h.log_cand i l hc hn
  exact
    { h with
      cand_rooted := fun u j m hm => rooted_grows a _ hg m (h.cand_rooted u j m hm)
      leader_cand := fun u j hl => by
        by_cases hu : u = a.term i
        · subst hu
          obtain rfl : i = j := by simpa [elected] using hl
          simpa [elected] using hc
        · simp only [elected, Function.update_of_ne hu] at hl ⊢
          exact h.leader_cand u j hl
      lead_split := fun u => by
        by_cases hu : u = a.term i
        · subst hu
          exact ⟨[],by simp [elected],by simp⟩
        · simp only [elected, Function.update_of_ne hu]
          exact h.lead_split u
      unled := fun u hl => by
        by_cases hu : u = a.term i
        · subst hu
          simp [elected] at hl
        · simp only [elected, Function.update_of_ne hu] at hl ⊢
          exact h.unled u hl
      lead_rooted := fun u => by
        by_cases hu : u = a.term i
        · subst hu
          simpa [elected] using rooted_grows a _ hg l (h.cand_rooted _ i l hc)
        · simp only [elected, Function.update_of_ne hu]
          exact rooted_grows a _ hg _ (h.lead_rooted u)
      log_rooted := fun j => rooted_grows a _ hg _ (h.log_rooted j)
      log_lead := fun j hl => by
        by_cases hu : a.term j = a.term i
        · simp only [elected, hu, Function.update_self, Option.some.injEq] at hl
          subst hl
          simpa [elected] using hlog
        · simp only [elected, Function.update_of_ne hu] at hl ⊢
          exact h.log_lead j hl
      log_cand := fun j m hm hl => by
        have hu : a.term j ≠ a.term i := by
          intro hu
          simp [elected, hu] at hl
        simp only [elected, Function.update_of_ne hu] at hl
        exact h.log_cand j m hm hl
      ack_le := fun j u => (h.ack_le j u).trans (hg.lead u).length_le
      ack_log := fun j u k hk => ack_log_keep h hg j u k List.prefix_rfl hk
      vote_ack := fun j u d m t k hd => vote_ack_keep h hg hack j u d m t k hd
      elect_ack := fun u c hl => by
        by_cases hu : u = a.term i
        · subst hu
          obtain rfl : i = c := by simpa [elected] using hl
          refine ⟨q,hq,fun j hj => ⟨hv j hj,fun t k htu hcl hk => ?_⟩⟩
          have hle := hk.trans (h.ack_le j t)
          have hb : (elected a i l).base (a.term i) = l := by simp [elected]
          rw [hb, take_grows hg t k hle]
          rcases h.vote_ack j _ i l t k (hv j hj) hc htu (closed_back hg t k hle hcl) hk with
            hp | hd
          · exact Or.inl hp
          · obtain ⟨s,hts,hsu,hls,hp⟩ := hd
            have hne : s ≠ a.term i := by
              rintro rfl
              exact hls hn
            exact Or.inr (diverged_grows hg t k _ _ hle le_rfl ⟨s,hts,by omega,hls,hp⟩)
        · simp only [elected, Function.update_of_ne hu] at hl
          exact elect_ack_keep h hg hack u c hl }

/-- The log of a leader stays rooted when it appends an entry of its term. -/
theorem rooted_appended (h : Inv Q a) (e : E) (hl : a.leader (a.term i) = some i)
    (he : stamp e = a.term i) : Rooted (appended a i e) (a.lead (a.term i) ++ [e]) := by
  have hg := step_grows h (.append a e hl he : Step Q i a (appended a i e))
  intro k d hd
  rcases lt_or_ge k (a.lead (a.term i)).length with hk | hk
  · rw [List.getElem?_append_left hk] at hd
    obtain ⟨h1,h2⟩ := rooted_grows a _ hg _ (h.lead_rooted _) k d hd
    exact ⟨h1,by rwa [List.take_append_of_le_length (by omega)]⟩
  · rw [List.getElem?_append_right hk] at hd
    obtain ⟨hk0,rfl⟩ : k-(a.lead (a.term i)).length = 0 ∧ e = d := by
      rw [List.getElem?_singleton] at hd
      split_ifs at hd with h0
      exact ⟨h0,Option.some.inj hd⟩
    refine ⟨by simp [appended, he, hl],?_⟩
    rw [List.take_of_length_le (by simp; omega), he]
    simp [appended]

theorem inv_appended (h : Inv Q a) (e : E) (hl : a.leader (a.term i) = some i)
    (he : stamp e = a.term i) : Inv Q (appended a i e) := by
  have hs : Step Q i a (appended a i e) := .append a e hl he
  have hg := step_grows h hs
  have hack := step_ack hs
  have hlog := h.log_lead i hl
  have hlead := rooted_appended h e hl he
  exact
    { h with
      cand_rooted := fun u j m hm => rooted_grows a _ hg m (h.cand_rooted u j m hm)
      lead_split := fun u => by
        by_cases hu : u = a.term i
        · subst hu
          obtain ⟨r,hr,hrs⟩ := h.lead_split (a.term i)
          refine ⟨r++[e],by simp [appended, hr],fun d hd => ?_⟩
          rcases List.mem_append.mp hd with hd | hd
          · exact hrs d hd
          · rw [List.mem_singleton.mp hd, he]
        · simp only [appended, Function.update_of_ne hu]
          exact h.lead_split u
      unled := fun u hn => by
        have hu : u ≠ a.term i := by
          rintro rfl
          simp [appended, hl] at hn
        simp only [appended, Function.update_of_ne hu]
        exact h.unled u hn
      lead_rooted := fun u => by
        by_cases hu : u = a.term i
        · subst hu
          simpa [appended] using hlead
        · simp only [appended, Function.update_of_ne hu]
          exact rooted_grows a _ hg _ (h.lead_rooted u)
      log_rooted := fun j => by
        by_cases hj : j = i
        · subst hj
          simpa [appended, hlog] using hlead
        · simp only [appended, Function.update_of_ne hj]
          exact rooted_grows a _ hg _ (h.log_rooted j)
      log_le := fun j d hd => by
        by_cases hj : j = i
        · subst hj
          simp only [appended, Function.update_self, List.mem_append, List.mem_singleton] at hd
          rcases hd with hd | rfl
          · exact h.log_le j d hd
          · exact le_of_eq he
        · simp only [appended, Function.update_of_ne hj] at hd
          exact h.log_le j d hd
      log_lead := fun j hj => by
        by_cases hji : j = i
        · subst hji
          simp [appended, hlog]
        · have hu : a.term j ≠ a.term i := by
            intro hu
            have hj' : a.leader (a.term j) = some j := hj
            rw [hu, hl] at hj'
            exact hji (Option.some.inj hj').symm
          simp only [appended, Function.update_of_ne hji, Function.update_of_ne hu]
          exact h.log_lead j hj
      log_cand := fun j m hm hn => by
        have hji : j ≠ i := by
          rintro rfl
          simp [appended, hl] at hn
        simp only [appended, Function.update_of_ne hji]
        exact h.log_cand j m hm hn
      ack_le := fun j u => (h.ack_le j u).trans (hg.lead u).length_le
      ack_log := fun j u k hk => by
        refine ack_log_keep h hg j u k ?_ hk
        by_cases hj : j = i
        · subst hj
          simp [appended]
        · simp [appended, hj]
      vote_ack := fun j u d m t k hd => vote_ack_keep h hg hack j u d m t k hd
      elect_ack := fun u c hc => elect_ack_keep h hg hack u c hc }

theorem inv_accepted (h : Inv Q a) (m : List E) (j : ι) (hl : a.leader (a.term i) = some j)
    (hj : j ≠ i) (hm : m <+: a.lead (a.term i)) : Inv Q (accepted a i m) := by
  have hs : Step Q i a (accepted a i m) := .accept a m j hl hj hm
  have hg := step_grows h hs
  have hack := step_ack hs
  exact
    { h with
      log_rooted := fun x => by
        by_cases hx : x = i
        · subst hx
          simp only [accepted, Function.update_self]
          rcases merge_cases (a.log x) m with ⟨-,he⟩ | ⟨-,he⟩
          · rw [he]
            exact h.log_rooted x
          · rw [he]
            exact rooted_below a m _ (h.lead_rooted _) hm
        · simp only [accepted, Function.update_of_ne hx]
          exact h.log_rooted x
      log_le := fun x e he => by
        by_cases hx : x = i
        · subst hx
          simp only [accepted, Function.update_self] at he
          rcases merge_cases (a.log x) m with ⟨-,hmx⟩ | ⟨-,hmx⟩
          · exact h.log_le x e (hmx ▸ he)
          · exact lead_le h _ e (hm.mem (hmx ▸ he))
        · simp only [accepted, Function.update_of_ne hx] at he
          exact h.log_le x e he
      log_lead := fun x hx => by
        have hxi : x ≠ i := by
          rintro rfl
          exact hj (Option.some.inj (hl.symm.trans hx))
        simp only [accepted, Function.update_of_ne hxi]
        exact h.log_lead x hx
      log_cand := fun x l hc hn => by
        have hxi : x ≠ i := by
          rintro rfl
          simp [accepted, hl] at hn
        simp only [accepted, Function.update_of_ne hxi]
        exact h.log_cand x l hc hn
      ack_log := fun x t k hk => by
        by_cases hx : x = i
        · subst hx
          simp only [accepted, Function.update_self]
          rcases h.ack_log x t k hk with hp | hd
          · rcases eq_or_ne t (a.term x) with rfl | hne
            · have htake : (a.lead (a.term x)).take k <+: a.lead (a.term x) :=
                List.take_prefix _ _
              exact Or.inl (merge_keeps _ m _ _ hp htake hm)
            · by_cases hb : (a.lead t).take k <+: a.base (a.term x)
              · exact Or.inl (merge_keeps _ m _ _ hp (hb.trans (base_below h _)) hm)
              · rcases Nat.eq_zero_or_pos k with rfl | hk0
                · simp at hb
                · have := h.ack_term x t (hk0.trans_le hk)
                  exact Or.inr ⟨a.term x,by omega,Nat.lt_succ_self _,by simp [hl],hb⟩
          · exact Or.inr hd
        · exact ack_log_keep h hg x t k (by simp [accepted, hx]) hk
      vote_ack := fun x u d l t k hd => vote_ack_keep h hg hack x u d l t k hd
      elect_ack := fun u c hc => elect_ack_keep h hg hack u c hc }

theorem inv_confirmed (h : Inv Q a) (k : ℕ) (hk : k ≤ (a.lead (a.term i)).length)
    (hp : (a.lead (a.term i)).take k <+: a.log i) : Inv Q (confirmed a i k) := by
  have hs : Step Q i a (confirmed a i k) := .confirm a k hk hp
  have hg := step_grows h hs
  have hack := step_ack hs
  exact
    { h with
      ack_le := fun j t => by
        simp only [confirmed, set2]
        split_ifs with hc
        · rw [hc.2]
          exact max_le (h.ack_le i _) hk
        · exact h.ack_le j t
      ack_term := fun j t ha => by
        simp only [confirmed, set2] at ha
        split_ifs at ha with hc
        · rw [hc.1, hc.2]
          exact le_rfl
        · exact h.ack_term j t ha
      ack_log := fun j t n hn => by
        simp only [confirmed, set2] at hn
        split_ifs at hn with hc
        · obtain ⟨rfl,rfl⟩ := hc
          rcases (by omega : n ≤ a.ack j (a.term j) ∨ n ≤ k) with hn | hn
          · exact h.ack_log j _ n hn
          · have htake : (a.lead (a.term j)).take n <+: (a.lead (a.term j)).take k :=
              List.take_prefix_take_left hn
            exact Or.inl (htake.trans hp)
        · exact h.ack_log j t n hn
      vote_ack := fun j u d l t n hd => vote_ack_keep h hg hack j u d l t n hd
      elect_ack := fun u c hc => elect_ack_keep h hg hack u c hc }

theorem inv_hollowed (h : Inv Q a) (k : ℕ) : Inv Q (hollowed a i k) :=
  { h with
    vote_le := h.vote_le }

theorem inv_step (h : Inv Q a) (hs : Step Q i a b) : Inv Q b := by
  cases hs with
  | raise t ht => exact inv_raised h t ht
  | stand => exact inv_stood h
  | grant c l hv hc hu => exact inv_granted h c l hv hc hu
  | elect l q hc hn hq hv => exact inv_elected h l q hc hn hq hv
  | append e hl he => exact inv_appended h e hl he
  | accept m j hl hj hm => exact inv_accepted h m j hl hj hm
  | confirm k hk hp => exact inv_confirmed h k hk hp
  | hollow k => exact inv_hollowed h k

theorem steps_inv (h : Inv Q a) (hs : Steps Q i a b) : Inv Q b ∧ Grows a b ∧ Frame i a b := by
  induction hs with
  | refl => exact ⟨h,grows_refl a,frame_refl i a⟩
  | tail _ hst ih =>
    exact ⟨inv_step ih.1 hst,grows_trans ih.2.1 (step_grows ih.1 hst),
      frame_trans ih.2.2 (step_frame hst)⟩

end Mitdist.LeaderProtocol
