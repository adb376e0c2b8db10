import Mitdist.RaftSimulation

/-!
# Election safety and log matching

Any two moments of a run are related to histories that a later one extends.
The leader of a term and the log of that leader are part of the history, so
they are the same at both moments: two leaders of one term are one server,
and two entries of one term at one index end the same prefix.
-/

set_option autoImplicit false

namespace Mitdist.RaftSafety
open Mitdist.RaftPeer Mitdist.RaftHandlers Mitdist.RaftWindow Mitdist.RaftCluster
open Mitdist.StampedLog Mitdist.LeaderProtocol Mitdist.RaftRelation Mitdist.RaftSimulation
open Mitdist.TransitionSystem

variable {C : Type} {n : ℕ} {es : List (Event C)}

/-- The cluster is in this state at some moment of the run. -/
def Visits (n : ℕ) (es : List (Event C)) (c : Cluster C) : Prop :=
  ∃ fs, fs <+: es ∧ exec n (RaftCluster.initial C n) fs = some c

theorem visits_get (n : ℕ) (es fs : List (Event C)) (hp : fs <+: es)
    (h : (exec n (RaftCluster.initial C n) fs).isSome = true) :
    Visits n es ((exec n (RaftCluster.initial C n) fs).get h) :=
  ⟨fs,hp,(Option.some_get h).symm⟩

/-- Two moments of a run, the histories behind them, and one that extends both. -/
theorem visits_pair (P : Cluster C → Event C → Prop) (R : Cluster C → Past C → Prop)
    (hR : Carried n P R) (h0 : R (RaftCluster.initial C n) LeaderProtocol.initial)
    (hm : Meets (step n) P (RaftCluster.initial C n) es) (c₁ c₂ : Cluster C)
    (h₁ : Visits n es c₁) (h₂ : Visits n es c₂) :
    ∃ a₁ a₂ b, Sim n c₁ a₁ ∧ Sim n c₂ a₂ ∧ R c₁ a₁ ∧ R c₂ a₂ ∧ Grows a₁ b ∧ Grows a₂ b ∧
      Sound n b := by
  have key : ∀ (fs gs : List (Event C)) (c d : Cluster C), fs <+: gs → gs <+: es →
      exec n (RaftCluster.initial C n) fs = some c → exec n (RaftCluster.initial C n) gs = some d →
      ∃ a b, Sim n c a ∧ Sim n d b ∧ R c a ∧ R d b ∧ Grows a b := by
    intro fs gs c d hp hgs hc hd
    obtain ⟨u,rest,hu,hr,rfl⟩ := exec_split (step n) _ d fs gs hp hd
    obtain ⟨more,rfl⟩ := hgs
    obtain rfl : c = u := Option.some.inj (hc.symm.trans hu)
    rw [meets_append, meets_append] at hm
    obtain ⟨a,-,ha,hra⟩ := sim_run P R hR fs (sim_initial C n) h0 hm.1.1 hc
    obtain ⟨b,hg,hb,hrb⟩ := sim_run P R hR rest ha hra (hm.1.2 c hc) hr
    exact ⟨a,b,ha,hb,hra,hrb,hg⟩
  obtain ⟨fs,hfs,hc₁⟩ := h₁
  obtain ⟨gs,hgs,hc₂⟩ := h₂
  rcases List.prefix_or_prefix_of_prefix hfs hgs with hp | hp
  · obtain ⟨a,b,ha,hb,hra,hrb,hg⟩ := key fs gs c₁ c₂ hp hgs hc₁ hc₂
    exact ⟨a,b,b,ha,hb,hra,hrb,hg,grows_refl b,hb.sound⟩
  · obtain ⟨a,b,ha,hb,hra,hrb,hg⟩ := key gs fs c₂ c₁ hp hfs hc₂ hc₁
    exact ⟨b,a,b,hb,ha,hrb,hra,grows_refl b,hg,hb.sound⟩

theorem visits_any (c₁ c₂ : Cluster C) (h₁ : Visits n es c₁) (h₂ : Visits n es c₂) :
    ∃ a₁ a₂ b, Sim n c₁ a₁ ∧ Sim n c₂ a₂ ∧ Grows a₁ b ∧ Grows a₂ b ∧ Sound n b := by
  have hm := meets_true (step n) es (RaftCluster.initial C n)
  obtain ⟨a₁,a₂,b,s₁,s₂,-,-,g₁,g₂,sb⟩ := visits_pair _ _ (carried_true n) trivial hm c₁ c₂ h₁ h₂
  exact ⟨a₁,a₂,b,s₁,s₂,g₁,g₂,sb⟩

/-- Server 0 wins an election of three and replicates one command to server 1. -/
def replicated : List (Event ℕ) :=
  [.election 0, .requestVote 0 1, .requestVoteReply 0 1, .countVote 0 1, .gatherVotes 0,
    .concludeElection 0, .start 0 (some 7), .appendMissingEntries 0 1 1, .appendEntries 0]

/-- At most one server ever leads a term. -/
theorem election_safety (n : ℕ) (es : List (Event C)) (c₁ c₂ : Cluster C) (h₁ : Visits n es c₁)
    (h₂ : Visits n es c₂) (i j T : ℕ)
    (hi : (c₁.servers i).state = .leader) (hti : (c₁.servers i).currentTerm = T)
    (hj : (c₂.servers j).state = .leader) (htj : (c₂.servers j).currentTerm = T) : i = j := by
  obtain ⟨a₁,a₂,b,s₁,s₂,g₁,g₂,-⟩ := visits_any c₁ c₂ h₁ h₂
  have led₁ := (g₁.leader _ i ((s₁.peer i).leader hi)).1
  have led₂ := (g₂.leader _ j ((s₂.peer j).leader hj)).1
  rw [← (s₁.peer i).term, hti] at led₁
  rw [← (s₂.peer j).term, htj] at led₂
  exact Option.some.inj (led₁.symm.trans led₂)

theorem election_safety_replicated : ∃ c₁ c₂, Visits 3 replicated c₁ ∧ Visits 3 replicated c₂ ∧
    (c₁.servers 0).state = .leader ∧ (c₂.servers 0).state = .leader ∧
    ∀ j, (c₂.servers j).state = .leader → (c₂.servers j).currentTerm = 1 → 0 = j := by
  have hbelow : replicated.take 6 <+: replicated := List.take_prefix _ _
  have v₁ := visits_get 3 replicated (replicated.take 6) hbelow (by decide +kernel)
  have v₂ := visits_get 3 replicated replicated List.prefix_rfl (by decide +kernel)
  exact ⟨_,_,v₁,v₂,by decide +kernel,by decide +kernel,fun j hj ht =>
    election_safety 3 replicated _ _ v₁ v₂ 0 j 1 (by decide +kernel) (by decide +kernel) hj ht⟩

def Retains (rf : Raft C) (i : ℤ) (e : LogEntry C) : Prop :=
  rf.lastIncludedIndex < i ∧ logEntry rf i = .ok e

instance decidableRetains [DecidableEq C] (rf : Raft C) (i : ℤ) (e : LogEntry C) :
    Decidable (Retains rf i e) :=
  inferInstanceAs (Decidable (_ ∧ _))

theorem retains_whole (c : Cluster C) (a : Past C) (s : Sim n c a) (i : ℕ) (x : ℤ) (e : LogEntry C)
    (h : Retains (c.servers i) x e) : ∃ k : ℕ, x = k ∧ (a.log i)[k]? = some e := by
  obtain ⟨b,w⟩ := (s.peer i).window
  rcases log_entry_cases w x e h.2 with ⟨hx,-⟩ | ⟨k,hx,-,he⟩
  · have := h.1
    rw [w.included] at this
    omega
  · exact ⟨k,hx,he⟩

theorem take_of_same_term (b : Past C) (l m : List (LogEntry C)) (hl : Rooted b l) (hm : Rooted b m)
    (k : ℕ) (d e : LogEntry C) (hd : l[k]? = some d) (he : m[k]? = some e)
    (ht : d.term = e.term) : l.take (k+1) = m.take (k+1) := by
  apply rooted_agree b l m hl hm (k+1) (List.getElem?_eq_some_iff.mp hd).1
    (List.getElem?_eq_some_iff.mp he).1
  rw [stamp_at_succ l k d hd, stamp_at_succ m k e he]
  exact ht

/-- Entries of one term at one index end the same prefix at any two moments,
and carry the command of the call of `Start` that was given their place. -/
theorem log_matching (n : ℕ) (es : List (Event C)) (c₁ c₂ : Cluster C) (h₁ : Visits n es c₁)
    (h₂ : Visits n es c₂) :
    (∀ (A B : ℕ) (i : ℤ) (d e : LogEntry C), Retains (c₁.servers A) i d →
      Retains (c₂.servers B) i e → d.term = e.term → d.command = e.command ∧
      ∀ (j : ℤ) (x y : LogEntry C), j ≤ i → Retains (c₁.servers A) j x →
        Retains (c₂.servers B) j y → x = y) ∧
    (∀ (A : ℕ) (i : ℤ) (e : LogEntry C) (s : Started C), Retains (c₁.servers A) i e →
      s ∈ c₂.started → s.isLeader = true → s.index = i+1 → s.term = e.term →
      e.command = s.command) ∧
    c₁.started.Pairwise (fun s s' => s.isLeader = true → s'.isLeader = true →
      ¬ (s.index = s'.index ∧ s.term = s'.term)) := by
  obtain ⟨a₁,a₂,b,s₁,s₂,g₁,g₂,sb⟩ := visits_any c₁ c₂ h₁ h₂
  have root₁ := fun A => rooted_grows a₁ b g₁ _ (s₁.sound.inv.log_rooted A)
  have root₂ := fun B => rooted_grows a₂ b g₂ _ (s₂.sound.inv.log_rooted B)
  refine ⟨?_,?_,s₁.distinct.imp (fun hd hs hs' hc => hd hs hs' hc.2 hc.1)⟩
  · intro A B i d e hd he ht
    obtain ⟨k,rfl,hdk⟩ := retains_whole c₁ a₁ s₁ A i d hd
    obtain ⟨k',hk,hek⟩ := retains_whole c₂ a₂ s₂ B k e he
    obtain rfl : k = k' := by omega
    have htake := take_of_same_term b _ _ (root₁ A) (root₂ B) k d e hdk hek ht
    have same : ∀ (j : ℕ) (x y : LogEntry C), j ≤ k → (a₁.log A)[j]? = some x →
        (a₂.log B)[j]? = some y → x = y := by
      intro j x y hjk hx hy
      have hj := congrArg (fun l => l[j]?) htake
      simp only [List.getElem?_take, if_pos (Nat.lt_succ_of_le hjk), hx, hy] at hj
      exact Option.some.inj hj
    refine ⟨by rw [same k d e le_rfl hdk hek],fun j x y hj hx hy => ?_⟩
    obtain ⟨p,rfl,hxp⟩ := retains_whole c₁ a₁ s₁ A j x hx
    obtain ⟨q,hq,hyq⟩ := retains_whole c₂ a₂ s₂ B p y hy
    obtain rfl : p = q := by omega
    exact same p x y (by omega) hxp hyq
  · intro A i e s he hs hl hi ht
    obtain ⟨k,rfl,hek⟩ := retains_whole c₁ a₁ s₁ A i e he
    obtain ⟨p,hp,hentry⟩ := started_grows g₂ s (s₂.started s hs hl)
    obtain rfl : p = k := by omega
    have htake := take_of_same_term b _ _ (root₁ A) (sb.inv.lead_rooted s.term) p e _ hek hentry
      ht.symm
    have hj := congrArg (fun l => l[p]?) htake
    simp only [List.getElem?_take, if_pos (Nat.lt_succ_self p), hek, hentry] at hj
    rw [Option.some.inj hj]

theorem log_matching_replicated : ∃ c, Visits 3 replicated c ∧
    Retains (c.servers 1) 0 ⟨0,1,some 7⟩ ∧
    ∀ e, Retains (c.servers 0) 0 e → e.term = 1 → e.command = some 7 := by
  have v := visits_get 3 replicated replicated List.prefix_rfl (by decide +kernel)
  refine ⟨_,v,by decide +kernel,fun e he ht => ?_⟩
  exact ((log_matching 3 replicated _ _ v v).1 0 1 0 e ⟨0,1,some 7⟩ he (by decide +kernel) ht).1

end Mitdist.RaftSafety
