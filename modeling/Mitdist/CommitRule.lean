import Mitdist.MatchIndex

/-!
# What a leader commits

The index to which the polling loop moves the commit index has a majority of
match indices at or above it and an entry of the current term. In a run
without snapshots every such match index is a stored acknowledgement, so the
prefix is chosen and lies below the log of every later leader.
-/

set_option autoImplicit false

namespace Mitdist.CommitRule
open Mitdist.RaftPeer Mitdist.RaftHandlers Mitdist.RaftWindow Mitdist.RaftCluster
open Mitdist.RaftOutcomes Mitdist.RaftEvents Mitdist.LeaderProtocol Mitdist.RaftRelation
open Mitdist.RaftSimulation Mitdist.RaftServers Mitdist.RaftSafety Mitdist.MatchIndex
open Mitdist.RaftIndices Mitdist.TransitionSystem

variable {C : Type} {n : ℕ} {c : Cluster C} {a : Past C}

theorem replicated_servers (l : List ℤ) (x : ℤ) : ∃ v : Finset ℕ, v ⊆ Finset.range l.length ∧
    v.card = l.foldl (fun count m => if m ≥ x then count + 1 else count) 0 ∧
    ∀ j ∈ v, ∃ m, l[j]? = some m ∧ x ≤ m := by
  induction l using List.reverseRecOn with
  | nil => exact ⟨∅,by simp,rfl,by simp⟩
  | append_singleton l y ih =>
    obtain ⟨v,hv,hcard,hm⟩ := ih
    have old : ∀ j ∈ v, ∃ m, (l++[y])[j]? = some m ∧ x ≤ m := by
      intro j hj
      obtain ⟨m,hjm,hx⟩ := hm j hj
      exact ⟨m,by rw [List.getElem?_append_left (Finset.mem_range.mp (hv hj)), hjm],hx⟩
    have hsub : v ⊆ Finset.range (l++[y]).length := by
      intro j hj
      have := Finset.mem_range.mp (hv hj)
      simp
      omega
    rw [List.foldl_append, List.foldl_cons, List.foldl_nil, ← hcard]
    split_ifs with hy
    · refine ⟨insert l.length v,?_,?_,?_⟩
      · exact Finset.insert_subset (by simp) hsub
      · exact Finset.card_insert_of_notMem (fun hc => by simpa using hv hc)
      · intro j hj
        rcases Finset.mem_insert.mp hj with rfl | hj
        · exact ⟨y,by simp,hy⟩
        · exact old j hj
    · exact ⟨v,hsub,rfl,old⟩

/-- An index that the leader finds on a majority was acknowledged by one. -/
theorem replicated_claimed (hs : Sim n c a) (i : ℕ) (hl : (c.servers i).state = .leader) (x : ℤ)
    (h : majority (c.servers i) ≤ nReplicated (c.servers i) x) :
    ∃ v : Finset ℕ, v ⊆ Finset.range n ∧ n/2+1 ≤ v.card ∧
      ∀ j ∈ v, x+1 ≤ claimed a j (a.term i) := by
  obtain ⟨v,hv,hcard,hm⟩ := replicated_servers (c.servers i).matchIndex x
  rw [(hs.peer i).matchLength] at hv
  rw [nReplicated, ← hcard, majority, (hs.peer i).peers] at h
  refine ⟨v,hv,h,fun j hj => ?_⟩
  obtain ⟨m,hjm,hx⟩ := hm j hj
  have := (hs.peer i).matched hl j m hjm
  omega

/-- What the polling loop of a leader has established when it commits. -/
theorem raise_facts (hs : Sim n c a) (i : ℕ) (hl : (c.servers i).state = .leader) (rf : Raft C)
    (he : advanceCommitIndex (c.servers i) = .ok rf)
    (hup : (c.servers i).commitIndex < rf.commitIndex) :
    ∃ k : ℕ, rf.commitIndex = k ∧ (c.servers i).lastIncludedIndex < k ∧
      k < (a.log i).length ∧ Closed a (a.term i) (k+1) ∧
      ∃ v : Finset ℕ, v ⊆ Finset.range n ∧ n/2+1 ≤ v.card ∧
        ∀ j ∈ v, k+1 ≤ claimed a j (a.term i) := by
  rcases advance_commit_outcome he with rfl | ⟨-,hlt,⟨e,hentry,hterm⟩,rfl⟩
  · omega
  · obtain ⟨b,w⟩ := (hs.peer i).window
    obtain ⟨hlast,hrep⟩ := largest_on_majority (c.servers i) hlt
    have hc := (hs.peer i).committed
    obtain ⟨v,hv,hcard,hclaim⟩ := replicated_claimed hs i hl _ hrep
    have hlog := hs.sound.inv.log_lead i ((hs.peer i).leader hl)
    rcases log_entry_cases w _ e hentry with ⟨hx,-⟩ | ⟨k,hx,-,hk⟩
    · rw [w.included] at hc
      omega
    · rw [hx] at hlt hclaim
      refine ⟨k,hx,by omega,(List.getElem?_eq_some_iff.mp hk).1,?_,v,hv,hcard,fun j hj => ?_⟩
      · exact ⟨k,e,rfl,hlog ▸ hk,by rw [stamp_term, hterm, (hs.peer i).term]⟩
      · have := hclaim j hj
        omega

def NoSnapshot : Event C → Prop
  | .snapshot _ _ _ => False
  | _ => True

instance decidableNoSnapshot : ∀ e : Event C, Decidable (NoSnapshot e)
  | .snapshot _ _ _ => .isFalse id
  | .election _ | .requestVote _ _ | .requestVoteReply _ _ | .requestVoteFailed _ _
  | .countVote _ _ | .gatherVotes _ | .concludeElection _ | .appendMissingEntries _ _ _
  | .appendEntries _ | .handleAppendReply _ | .installSnapshot _ | .installSnapshotReply _
  | .start _ _ | .advanceCommitIndex _ | .apply _ | .crash _ => .isTrue trivial

structure Plain (c : Cluster C) (a : Past C) : Prop where
  covered : Covered c a
  included : ∀ i, (c.servers i).lastIncludedIndex = -1
  calls : ∀ r ∈ c.snapshotCalls, r.args.lastIncludedIndex = -1

theorem plain_initial (C : Type) (n : ℕ) :
    Plain (RaftCluster.initial C n) LeaderProtocol.initial :=
  ⟨covered_initial C n,fun _ => rfl,fun r hr => by simp [RaftCluster.initial] at hr⟩

theorem plain_carried : Carried (C := C) n (fun _ e => NoSnapshot e) Plain := by
  intro c e c' i a a' hsim hplain hno hruns hst hsim' heff
  have hcovers : Covers c e := by
    cases e with
    | appendEntries k =>
      intro r hk hskip
      obtain ⟨p,hrel⟩ := hsim.appends r (List.mem_of_getElem? hk)
      have h1 := hskip.2
      have h2 := hrel.prev
      have h3 := hplain.included r.callee
      omega
    | _ => trivial
  refine ⟨covered_carried c e c' i a a' hsim hplain.covered hcovers hruns hst hsim' heff,
    fun j => ?_,fun r hr => ?_⟩
  · rcases runs_server hsim e hruns j with hs | ⟨s,m,hsec,hran⟩
    · rw [hs]
      exact hplain.included j
    · rcases included_section (peer_ordered hsim j) (hsim.peer j).persisted s m hran with
        hi | ⟨hlt,⟨index,bytes,rfl⟩ | ⟨args,rfl,hi⟩⟩
      · rw [hi]
        exact hplain.included j
      · rw [snapshot_origin e j index bytes hsec] at hno
        exact hno.elim
      · obtain ⟨k,r,-,hk,-,rfl⟩ := install_origin e j args hsec
        rw [hi]
        exact hplain.calls r (List.mem_of_getElem? hk)
  · rcases runs_snapshot_calls n c c' e hruns r hr with ⟨r0,hr0,hargs⟩ | ⟨x,term,server,he⟩
    · rw [← hargs]
      exact hplain.calls r0 hr0
    · rcases append_missing_outcome term server _ he with hn | ⟨-,-,⟨_,-,hreq⟩ | ⟨_,_,_,-,-,hreq⟩⟩
      · simp at hn
      · simp only [Option.some.injEq, Request.installSnapshot.injEq] at hreq
        rw [hreq]
        exact hplain.included x
      · simp at hreq

theorem plain_hollow (hs : Sim n c a) (h : Plain c a) (j t : ℕ) : a.hollow j t = 0 := by
  have h1 := h.covered j t
  have h2 := (peer_ordered hs j).base
  have h3 := h.included j
  omega

theorem plain_retains (hs : Sim n c a) (h : Plain c a) (i m : ℕ) (e : LogEntry C)
    (he : (a.log i)[m]? = some e) : Retains (c.servers i) m e := by
  obtain ⟨b,w⟩ := (hs.peer i).window
  have hincl := h.included i
  have hw := w.included
  refine ⟨by omega,?_⟩
  exact log_entry_get w m e (by omega) he

/-- Without hollow acknowledgements the commit rule chooses a prefix. -/
theorem raise_chosen (hs : Sim n c a) (h : Plain c a) (i : ℕ)
    (hl : (c.servers i).state = .leader) (rf : Raft C)
    (he : advanceCommitIndex (c.servers i) = .ok rf)
    (hup : (c.servers i).commitIndex < rf.commitIndex) :
    ∃ k : ℕ, rf.commitIndex = k ∧ k < (a.log i).length ∧
      Chosen (majorities n) a (a.term i) (k+1) := by
  obtain ⟨k,hk,-,hlen,hclosed,v,hv,hcard,hclaim⟩ := raise_facts hs i hl rf he hup
  refine ⟨k,hk,hlen,hclosed,{q | q ∈ v},⟨v,hv,hcard,fun q hq => hq⟩,fun q hq => ?_⟩
  have := hclaim q hq
  rwa [claimed, plain_hollow hs h, Nat.max_zero] at this

/-- In a run without snapshots, what a leader of one term commits is in the
log of every leader of a later term, as the committing leader had it. -/
theorem leader_completeness (n : ℕ) (es es₁ : List (Event C)) (c₁ c₁' c₂ : Cluster C) (i j T : ℕ)
    (hno : ∀ e ∈ es, NoSnapshot e) (hp : es₁ ++ [.advanceCommitIndex i] <+: es)
    (h₁ : exec n (RaftCluster.initial C n) es₁ = some c₁)
    (hstep : step n c₁ (.advanceCommitIndex i) = some c₁')
    (hi : (c₁.servers i).state = .leader) (hti : (c₁.servers i).currentTerm = T)
    (hup : (c₁.servers i).commitIndex < (c₁'.servers i).commitIndex)
    (h₂ : Visits n es c₂) (hj : (c₂.servers j).state = .leader)
    (htj : T < (c₂.servers j).currentTerm) (x : ℤ) (h0 : 0 ≤ x)
    (hx : x ≤ (c₁'.servers i).commitIndex) :
    ∃ e, Retains (c₁.servers i) x e ∧ Retains (c₂.servers j) x e := by
  have hm : Meets (step n) (fun _ e => NoSnapshot e) (RaftCluster.initial C n) es :=
    meets_of_mem _ _ es _ (fun _ e he => hno e he)
  have hbelow : es₁ <+: es₁ ++ [.advanceCommitIndex i] := List.prefix_append _ _
  have v₁ : Visits n es c₁ := ⟨es₁,hbelow.trans hp,h₁⟩
  obtain ⟨a₁,a₂,b,s₁,s₂,p₁,p₂,g₁,g₂,sb⟩ := visits_pair _ _ plain_carried (plain_initial C n) hm
    c₁ c₂ v₁ h₂
  cases step_runs n c₁ c₁' _ hstep with
  | advanceCommitIndex _ rf hin he =>
    simp only [withServer, Function.update_self] at hup hx
    obtain ⟨k,hk,hlen,hchosen⟩ := raise_chosen s₁ p₁ i hi rf he hup
    have hled₁ := (s₁.peer i).leader hi
    have hled₂ := (s₂.peer j).leader hj
    have hlog₁ := s₁.sound.inv.log_lead i hled₁
    have hlog₂ := s₂.sound.inv.log_lead j hled₂
    obtain ⟨hledb,hbase⟩ := g₂.leader _ j hled₂
    have hlater : a₁.term i < a₂.term j := by
      rw [← (s₁.peer i).term, ← (s₂.peer j).term, hti]
      exact htj
    have hbelow := chosen_below_base sb.inv _ (k+1) (chosen_grows g₁ _ (k+1) hchosen)
      (a₂.term j) hlater (by rw [hledb]; simp)
    rw [hbase, take_grows g₁ _ (k+1) (hlog₁ ▸ hlen), ← hlog₁] at hbelow
    obtain ⟨rest,hrest⟩ := hbelow.trans (base_below s₂.sound.inv (a₂.term j))
    rw [← hlog₂] at hrest
    obtain ⟨m,rfl⟩ : ∃ m : ℕ, x = m := ⟨x.toNat,by omega⟩
    have hmk : m < k+1 := by omega
    obtain ⟨e,hem⟩ : ∃ e, (a₁.log i)[m]? = some e := ⟨_,List.getElem?_eq_getElem (by omega)⟩
    refine ⟨e,plain_retains s₁ p₁ i m e hem,plain_retains s₂ p₂ j m e ?_⟩
    rw [← hrest, List.getElem?_append_left (by rw [List.length_take]; omega), List.getElem?_take,
      if_pos hmk, hem]

/-- The entry committed by server 0 in term 1 is held by server 1, the leader
of term 2. -/
def succession : List (Event ℕ) :=
  replicated ++ [.handleAppendReply 0, .advanceCommitIndex 0, .election 1, .requestVote 1 2,
    .requestVoteReply 1 2, .countVote 1 2, .gatherVotes 1, .concludeElection 1]

theorem leader_completeness_succession : ∃ c₁ c₁' c₂,
    RaftCluster.exec 3 (RaftCluster.initial ℕ 3) (replicated ++ [.handleAppendReply 0]) = some c₁ ∧
    step 3 c₁ (.advanceCommitIndex 0) = some c₁' ∧ (c₁'.servers 0).commitIndex = 0 ∧
    RaftCluster.exec 3 (RaftCluster.initial ℕ 3) succession = some c₂ ∧
    (c₂.servers 1).state = .leader ∧
    (c₂.servers 1).currentTerm = 2 ∧
    ∃ e, Retains (c₁.servers 0) 0 e ∧ Retains (c₂.servers 1) 0 e :=
  ⟨_,_,_,rfl,rfl,by decide +kernel,rfl,by decide +kernel,by decide +kernel,
    leader_completeness 3 succession (replicated ++ [.handleAppendReply 0]) _ _ _ 0 1 1
      (by decide +kernel) (by decide +kernel) rfl rfl (by decide +kernel) (by decide +kernel)
      (by decide +kernel) ⟨succession,List.prefix_rfl,rfl⟩ (by decide +kernel) (by decide +kernel)
      0 (by decide) (by decide +kernel)⟩

end Mitdist.CommitRule
