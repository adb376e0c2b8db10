import Mitdist.RaftServers

/-!
# Votes and the leaders they elect

An election counts its own candidate and the replies that grant it. What can
happen to an election in progress is listed once; from the list follow that
the count is backed by as many different supporters, that a won election stays
won, and that a candidate stands once in a term. A server supports one
candidate of a term, so the supporters of two elections of one term are
disjoint sets.
-/

set_option autoImplicit false

namespace Mitdist.Votes
open Mitdist.RaftPeer Mitdist.RaftHandlers Mitdist.RaftCluster Mitdist.RaftOutcomes
open Mitdist.RaftInstance Mitdist.RaftEvents Mitdist.RaftRelation Mitdist.RaftSimulation
open Mitdist.RaftServers Mitdist.LeaderProtocol Mitdist.TransitionSystem

variable {C : Type} {n : ℕ} {c c' : Cluster C} {a : Past C} {e e' : Election}

/-- The server is the candidate itself or has answered that it grants its vote. -/
def Supports (e : Election) (j : ℕ) : Prop :=
  j = e.me ∨ ∃ r, (e.calls j).reply = some r ∧ r.voteGranted = true

/-- What an event can do to an election. -/
inductive Polled (c : Cluster C) (e : Election) : Election → Prop
  | replied (j : ℕ) (reply : RequestVoteReply) (hr : (e.calls j).reply = none) :
      Polled c e (withCall e j { e.calls j with reply := some reply })
  | answered (j : ℕ) (hs : (e.calls j).stage = .waiting) :
      Polled c e (withCall e j { e.calls j with stage := .answered })
  | failed (j : ℕ) (hs : (e.calls j).stage = .waiting) :
      Polled c e { withCall e j { e.calls j with stage := .finished } with
        finished := e.finished + 1 }
  | counted (j : ℕ) (reply : RequestVoteReply) (hr : (e.calls j).reply = some reply)
      (hs : (e.calls j).stage = .answered) :
      Polled c e { withCall e j { e.calls j with stage := .finished } with
        count := if reply.voteGranted then e.count + 1 else e.count
        finished := e.finished + 1 }
  | gathered : Polled c e { e with elected := some (e.count ≥ majority (c.servers e.me)) }
  | concluded : Polled c e { e with concluded := true }

theorem runs_elections (ev : Event C) (hr : Runs n c ev c') :
    c'.elections = c.elections ∨
    (∃ i rf args, i < n ∧ election (c.servers i) = .ok (rf, args) ∧
      c'.elections = c.elections ++ [newElection n i (c.epoch i) args]) ∨
    ∃ k e e', c.elections[k]? = some e ∧ Polled c e e' ∧ c'.elections = c.elections.set k e' := by
  cases hr with
  | election i rf args hi hs h => exact Or.inr (Or.inl ⟨i,rf,args,hi,h,rfl⟩)
  | requestVote k j e rf reply he hj hr h =>
    exact Or.inr (Or.inr ⟨k,e,_,he,.replied j reply hr,rfl⟩)
  | requestVoteReply k j e reply he hr hs =>
    exact Or.inr (Or.inr ⟨k,e,_,he,.answered j hs,rfl⟩)
  | requestVoteFailed k j e he hs => exact Or.inr (Or.inr ⟨k,e,_,he,.failed j hs,rfl⟩)
  | countVote k j e reply he hr hs =>
    exact Or.inr (Or.inr ⟨k,e,_,he,.counted j reply hr hs,rfl⟩)
  | gatherVotes k e he => exact Or.inr (Or.inr ⟨k,e,_,he,.gathered,rfl⟩)
  | concludeElection k e elected rf he hel h =>
    exact Or.inr (Or.inr ⟨k,e,_,he,.concluded,rfl⟩)
  | appendMissingEntries i term server request hi hs hne h =>
    rcases request with - | - | - <;> exact Or.inl rfl
  | _ => exact Or.inl rfl

/-- The term and the candidate of an election. -/
def contest (e : Election) : ℕ × ℕ := (e.args.term, e.me)

theorem polled_contest (h : Polled c e e') : contest e' = contest e := by
  cases h <;> rfl

theorem polled_supports (h : Polled c e e') (j : ℕ) (hj : Supports e j) : Supports e' j := by
  have kept : ∀ (x : ℕ) (v : VoteCall),
      (∀ r, (e.calls x).reply = some r → v.reply = some r) → Supports (withCall e x v) j := by
    intro x v hv
    rcases hj with hme | ⟨r,hr,hg⟩
    · exact Or.inl hme
    · refine Or.inr ⟨r,?_,hg⟩
      by_cases hx : j = x
      · subst hx
        simpa [withCall] using hv r hr
      · simpa [withCall, hx] using hr
  cases h with
  | replied x reply hr => exact kept x _ (fun r hs => by simp [hr] at hs)
  | answered x hs => exact kept x _ (fun r hr => hr)
  | failed x hs => exact kept x _ (fun r hr => hr)
  | counted x reply hr hs => exact kept x _ (fun r hr => hr)
  | gathered => exact hj
  | concluded => exact hj

/-- The count of an election is the number of supporters whose calls are over. -/
def Tallied (n : ℕ) (e : Election) : Prop :=
  ∃ v : Finset ℕ, v ⊆ Finset.range n ∧ v.card = e.count ∧
    ∀ j ∈ v, Supports e j ∧ (e.calls j).stage = .finished

theorem tallied_new (i epoch : ℕ) (args : RequestVoteArgs) (hi : i < n) :
    Tallied n (newElection n i epoch args) := by
  refine ⟨{i},by simpa using hi,rfl,fun j hj => ?_⟩
  obtain rfl := Finset.mem_singleton.mp hj
  exact ⟨Or.inl rfl,by simp [newElection]⟩

/-- A vote is counted once: the call of a counted supporter is over. -/
theorem tallied_polled (h : Polled c e e') (hn : ∀ j r, (e.calls j).reply = some r → j < n)
    (ht : Tallied n e) : Tallied n e' := by
  obtain ⟨v,hv,hcard,hall⟩ := ht
  have supports : ∀ j ∈ v, Supports e' j := fun j hj => polled_supports h j (hall j hj).1
  have ended : ∀ (x : ℕ) (w : VoteCall), ((e.calls x).stage = .finished → w.stage = .finished) →
      ∀ j ∈ v, ((withCall e x w).calls j).stage = .finished := by
    intro x w hw j hj
    by_cases hx : j = x
    · subst hx
      simpa [withCall] using hw (hall j hj).2
    · simpa [withCall, hx] using (hall j hj).2
  cases h with
  | replied x reply hr =>
    exact ⟨v,hv,hcard,fun j hj => ⟨supports j hj,ended x { e.calls x with reply := some reply }
      (fun hx => hx) j hj⟩⟩
  | answered x hs =>
    exact ⟨v,hv,hcard,fun j hj => ⟨supports j hj,ended x _ (by simp [hs]) j hj⟩⟩
  | failed x hs =>
    exact ⟨v,hv,hcard,fun j hj => ⟨supports j hj,ended x _ (fun _ => rfl) j hj⟩⟩
  | counted x reply hr hs =>
    have hx : x ∉ v := fun hx => by simp [(hall x hx).2] at hs
    cases hg : reply.voteGranted with
    | false =>
      exact ⟨v,hv,by simpa [hg] using hcard,fun j hj =>
        ⟨hg ▸ supports j hj,ended x _ (fun _ => rfl) j hj⟩⟩
    | true =>
      refine ⟨insert x v,Finset.insert_subset (Finset.mem_range.mpr (hn x reply hr)) hv,
        by simp [Finset.card_insert_of_notMem hx, hcard],fun j hj => ?_⟩
      rcases Finset.mem_insert.mp hj with rfl | hj
      · exact ⟨Or.inr ⟨reply,by simpa [withCall] using hr,hg⟩,by simp [withCall]⟩
      · exact ⟨hg ▸ supports j hj,ended x _ (fun _ => rfl) j hj⟩
  | gathered => exact ⟨v,hv,hcard,hall⟩
  | concluded => exact ⟨v,hv,hcard,hall⟩

/-- The server has won an election of the term. -/
def Won (c : Cluster C) (i t : ℕ) : Prop :=
  ∃ e ∈ c.elections, contest e = (t, i) ∧ e.elected = some true

/-- A later look at the count of a won election finds the majority again. -/
theorem polled_won (hs : Sim n c a) (hrel : ElectionRel n a e) (h : Polled c e e')
    (hw : e.elected = some true) : e'.elected = some true := by
  cases h with
  | gathered =>
    have hmaj : majority (c.servers e.me) = n/2+1 := by rw [majority, (hs.peer e.me).peers]
    simpa [hmaj] using hrel.elected hw
  | _ => exact hw

theorem runs_won (hs : Sim n c a) (ev : Event C) (hr : Runs n c ev c') (i t : ℕ)
    (hw : Won c i t) : Won c' i t := by
  obtain ⟨e,he,hc,hel⟩ := hw
  rcases runs_elections ev hr with heq | ⟨j,rf,args,-,-,heq⟩ | ⟨k,d,d',hk,hp,heq⟩
  · exact ⟨e,by rwa [heq],hc,hel⟩
  · exact ⟨e,by rw [heq]; exact List.mem_append_left _ he,hc,hel⟩
  · obtain ⟨k',hk'⟩ := List.mem_iff_getElem?.mp he
    by_cases hkk : k = k'
    · subst hkk
      obtain rfl : d = e := Option.some.inj (hk.symm.trans hk')
      have hlen : k < c.elections.length := (List.getElem?_eq_some_iff.mp hk).1
      refine ⟨d',by rw [heq]; exact List.mem_set hlen d',(polled_contest hp).trans hc,?_⟩
      exact polled_won hs (hs.elections d he) hp hel
    · refine ⟨e,?_,hc,hel⟩
      rw [heq]
      exact List.mem_of_getElem? (by rw [List.getElem?_set_ne hkk, hk'])

/-- Only the end of an election makes a candidate the leader of its term. -/
theorem elected_section {rf rf' : Raft C} (s : Section C) (m : Option (ApplyMsg C))
    (hr : Ran rf s rf' m) (hc : rf.state = .candidate) (hl : rf'.state = .leader) :
    s = .concludeElection rf.currentTerm true ∧ rf'.currentTerm = rf.currentTerm := by
  have same : rf'.state ≠ rf.state := by simp [hc, hl]
  have raised : ∀ t, rf'.state ≠ (handleHigherTerm rf t).state := by
    intro t ht
    rw [ht] at hl
    exact same (by rw [ht, (higher_term_leader rf t hl).1])
  cases hr with
  | start command _ r he =>
    obtain ⟨index,term,isLeader⟩ := r
    obtain ⟨-,hsame,-⟩ := start_outcome command index term isLeader he
    exact absurd (by rw [hsame (by simp [hc])]) same
  | snapshot index bytes _ he =>
    rcases snapshot_outcome index bytes he with rfl | ⟨-,-,rf2,ht,rfl⟩
    · exact absurd rfl same
    · obtain ⟨e,log,-,-,rfl⟩ := trim_outcome _ ht
      exact absurd rfl same
  | requestVote args _ reply he =>
    rcases request_vote_outcome args reply he with rfl | rfl <;> exact absurd rfl (raised args.term)
  | appendEntries args _ reply he =>
    have hstill := (append_entries_leads args reply he hl).1.1
    simp [hc] at hstill
  | installSnapshot args _ reply he =>
    have hstill := (install_snapshot_leads args reply he hl).1.1
    simp [hc] at hstill
  | handleHigherTerm term => exact absurd rfl (raised term)
  | handleAppendReply server args reply _ he =>
    rcases append_reply_outcome server args reply he with rfl | ⟨hs,-⟩
    · exact absurd rfl (raised reply.term)
    · simp [hc] at hs
  | election _ args he =>
    rw [election_outcome args he] at hl
    simp at hl
  | concludeElection preGatherTerm elected _ he =>
    rw [concludeElection] at he
    split_ifs at he with hwin
    · obtain ⟨-,rfl,rfl⟩ := hwin
      obtain ⟨nextIndex,matchIndex,rfl⟩ := become_leader_outcome he
      exact ⟨rfl,rfl⟩
    · exact absurd (by rw [Except.ok.inj he]) same
  | advanceCommitIndex _ he =>
    rcases advance_commit_outcome he with rfl | ⟨-,-,-,rfl⟩ <;> exact absurd rfl same
  | apply _ msg _ he =>
    rcases apply_outcome msg he with ⟨-,rfl,-⟩ | ⟨-,rfl,-⟩ <;> exact absurd rfl same
  | crash => simp [make] at hl

theorem conclude_origin (ev : Event C) (j t : ℕ) (elected : Bool)
    (h : sectionOf c ev = some (j, .concludeElection t elected)) :
    ∃ e ∈ c.elections, contest e = (t, j) ∧ e.elected = some elected := by
  cases ev <;> simp only [sectionOf, Option.bind_eq_bind, Option.bind_eq_some_iff, Option.pure_def,
    Option.some.injEq, Prod.mk.injEq, reduceCtorEq, and_false, exists_false,
    Section.concludeElection.injEq] at h
  obtain ⟨e,hk,elected',hel,rfl,rfl,rfl⟩ := h
  exact ⟨e,List.mem_of_getElem? hk,rfl,hel⟩

/-- Every count is backed by supporters, no candidate stands twice in a term
and every leader has won an election of its term. -/
structure Fair (n : ℕ) (c : Cluster C) : Prop where
  tallied : ∀ e ∈ c.elections, Tallied n e
  once : (c.elections.map contest).Nodup
  won : ∀ i, (c.servers i).state = .leader → Won c i (c.servers i).currentTerm

/-- A candidate's next election is in a term in which it has not stood. -/
theorem contest_new (hs : Sim n c a) (i epoch : ℕ) (rf : Raft C) (args : RequestVoteArgs)
    (he : election (c.servers i) = .ok (rf, args)) :
    contest (newElection n i epoch args) ∉ c.elections.map contest := by
  intro hmem
  obtain ⟨e,hin,heq⟩ := List.mem_map.mp hmem
  obtain ⟨hterm,hme⟩ := Prod.mk.inj heq
  obtain ⟨l,hl,-⟩ := (hs.elections e hin).stood
  have hle := hs.sound.inv.vote_le _ _ _ (hs.sound.inv.cand_vote _ _ l hl)
  have hargs : args.term = (c.servers i).currentTerm + 1 := by
    rw [election, bind_ok] at he
    obtain ⟨term,-,he⟩ := he
    rw [← (Prod.mk.inj (Except.ok.inj he)).2]
    rfl
  have hcur := (hs.peer i).term
  simp only [newElection] at hterm hme
  rw [hme] at hle
  omega

theorem fair_runs (hs : Sim n c a) (hf : Fair n c) (ev : Event C) (hr : Runs n c ev c') :
    Fair n c' := by
  have led : ∀ i, (c'.servers i).state = .leader → Won c' i (c'.servers i).currentTerm := by
    intro i hl
    apply runs_won hs ev hr
    rcases runs_server hs ev hr i with hsame | ⟨s,m,hsec,hran⟩
    · rw [hsame] at hl ⊢
      exact hf.won i hl
    · rcases leads_section s m hran hl with ⟨⟨hstill,hterm⟩,-⟩ | ⟨hcand,-⟩
      · rw [hterm]
        exact hf.won i hstill
      · obtain ⟨rfl,hterm⟩ := elected_section s m hran hcand hl
        rw [hterm]
        exact conclude_origin ev i _ true hsec
  rcases runs_elections ev hr with heq | ⟨i,rf,args,hi,he,heq⟩ | ⟨k,d,d',hk,hp,heq⟩
  · exact ⟨by rw [heq]; exact hf.tallied,by rw [heq]; exact hf.once,led⟩
  · refine ⟨fun e hin => ?_,?_,led⟩
    · rw [heq] at hin
      rcases List.mem_append.mp hin with hin | hin
      · exact hf.tallied e hin
      · rw [List.mem_singleton.mp hin]
        exact tallied_new i _ args hi
    · rw [heq, List.map_append, List.map_singleton]
      exact List.nodup_append_comm.mp
        (List.nodup_cons.mpr ⟨contest_new hs i _ rf args he,hf.once⟩)
  · have hd := List.mem_of_getElem? hk
    refine ⟨fun e hin => ?_,?_,led⟩
    · rw [heq] at hin
      rcases List.mem_or_eq_of_mem_set hin with hin | rfl
      · exact hf.tallied e hin
      · exact tallied_polled hp (fun j r hj => ((hs.elections d hd).granted j r hj).1)
          (hf.tallied d hd)
    · have hmap : (c.elections.set k d').map contest = c.elections.map contest := by
        obtain ⟨hlt,hget⟩ := List.getElem?_eq_some_iff.mp
          (show (c.elections.map contest)[k]? = some (contest d) by simp [hk])
        rw [List.map_set, polled_contest hp, ← hget, List.set_getElem_self]
      rw [heq, hmap]
      exact hf.once

theorem supports_vote (hs : Sim n c a) (he : e ∈ c.elections) (j : ℕ) (hj : Supports e j) :
    a.vote j e.args.term = some e.me := by
  have hrel := hs.elections e he
  rcases hj with rfl | ⟨r,hr,hg⟩
  · obtain ⟨l,hl,-⟩ := hrel.stood
    exact hs.sound.inv.cand_vote _ _ l hl
  · exact (hrel.granted j r hr).2 hg

/-- In every run the supporters of two elections of one term are disjoint, a
won election has the support of a majority, and every leader has won an
election of its term. -/
theorem leaders_voted_in (n : ℕ) (es : List (Event C)) (c : Cluster C)
    (h : RaftCluster.exec n (RaftCluster.initial C n) es = some c) :
    c.elections.Pairwise (fun e e' => e.args.term = e'.args.term →
      ∀ j, Supports e j → ¬ Supports e' j) ∧
    (∀ e ∈ c.elections, e.elected = some true → ∃ v : Finset ℕ, v ⊆ Finset.range n ∧
      n/2+1 ≤ v.card ∧ ∀ j ∈ v, Supports e j) ∧
    ∀ i, (c.servers i).state = .leader → ∃ e ∈ c.elections, e.me = i ∧
      e.args.term = (c.servers i).currentTerm ∧ e.elected = some true := by
  obtain ⟨a,-,hs,hf⟩ := sim_run (fun _ _ => True) (fun c _ => Fair n c)
    (fun c e c' i a a' hs hf _ hruns _ _ _ => fair_runs hs hf e hruns) es (sim_initial C n)
    ⟨by simp [RaftCluster.initial],by simp [RaftCluster.initial],
      by simp [RaftCluster.initial, make]⟩ (meets_true _ es _) h
  refine ⟨?_,?_,?_⟩
  · refine (List.pairwise_map.mp hf.once).imp_of_mem (fun he he' hne ht j hj hj' => hne ?_)
    have hv := supports_vote hs he j hj
    rw [ht, supports_vote hs he' j hj'] at hv
    exact Prod.ext ht (Option.some.inj hv).symm
  · intro e he hel
    obtain ⟨v,hv,hcard,hall⟩ := hf.tallied e he
    exact ⟨v,hv,hcard ▸ (hs.elections e he).elected hel,fun j hj => (hall j hj).1⟩
  · intro i hl
    obtain ⟨e,he,hc,hel⟩ := hf.won i hl
    obtain ⟨hterm,hme⟩ := Prod.mk.inj hc
    exact ⟨e,he,hme,hterm,hel⟩

/-- Servers 0 and 1 stand in one term and ask server 2, which grants only the
first; server 0 wins with the vote of server 3. -/
def contested : List (Event ℕ) :=
  [.election 0, .election 1, .requestVote 0 2, .requestVote 1 2, .requestVote 0 3,
    .requestVoteReply 1 2, .countVote 1 2, .requestVoteReply 0 2, .countVote 0 2,
    .requestVoteReply 0 3, .countVote 0 3, .gatherVotes 0, .concludeElection 0]

theorem leaders_voted_in_contested : ∃ c,
    RaftCluster.exec 5 (RaftCluster.initial ℕ 5) contested = some c ∧
    (c.servers 0).state = .leader ∧ ∃ e ∈ c.elections, e.me = 0 ∧ e.args.term = 1 ∧
      ∃ v : Finset ℕ, v ⊆ Finset.range 5 ∧ 3 ≤ v.card ∧ ∀ j ∈ v, Supports e j := by
  obtain ⟨c,hc⟩ := Option.isSome_iff_exists.mp (by decide +kernel :
    (RaftCluster.exec 5 (RaftCluster.initial ℕ 5) contested).isSome = true)
  have hlead : ∀ d ∈ RaftCluster.exec 5 (RaftCluster.initial ℕ 5) contested,
      (d.servers 0).state = .leader ∧ (d.servers 0).currentTerm = 1 := by decide +kernel
  obtain ⟨hstate,hterm⟩ := hlead c hc
  obtain ⟨-,hmajority,hwon⟩ := leaders_voted_in 5 contested c hc
  obtain ⟨e,he,hme,ht,hel⟩ := hwon 0 hstate
  exact ⟨c,hc,hstate,e,he,hme,ht.trans hterm,hmajority e he hel⟩

end Mitdist.Votes
