import Mitdist.CommitRule

/-!
# Committed prefixes are settled

The prefix that a server has committed is settled, and so is everything that
a request in flight declares to be committed. One event keeps this if a peer
that polls its match indices leads, or would not commit anyway, and if no
request below a snapshot carries entries beyond it. Whatever is applied then
comes from settled prefixes, of which any two agree.
-/

set_option autoImplicit false

namespace Mitdist.CommitSafety
open Mitdist.RaftPeer Mitdist.RaftHandlers Mitdist.RaftWindow Mitdist.RaftCluster
open Mitdist.RaftOutcomes Mitdist.RaftInstance Mitdist.RaftEvents Mitdist.StampedLog
open Mitdist.LeaderProtocol Mitdist.RaftRelation Mitdist.RaftSimulation Mitdist.RaftServers
open Mitdist.RaftIndices Mitdist.RaftSafety Mitdist.MatchIndex Mitdist.CommitRule
open Mitdist.TransitionSystem

variable {C : Type} {n : ℕ} {c c' : Cluster C} {a a' : Past C}

/-- A peer that polls its match indices leads, or finds nothing to commit. -/
def Polls (rf : Raft C) : Prop :=
  rf.state = .leader ∨ rf.commitIndex = lastLogIndex rf ∨
    nReplicated rf (rf.commitIndex + 1) < majority rf ∨
    ∀ e ∈ (logEntry rf (largestOnMajority rf)).toOption, e.term ≠ rf.currentTerm

instance decidablePolls (rf : Raft C) : Decidable (Polls rf) :=
  inferInstanceAs (Decidable (_ ∨ _ ∨ _ ∨ _))

def PollsOnly (c : Cluster C) : Event C → Prop
  | .advanceCommitIndex i => Polls (c.servers i)
  | _ => True

instance decidablePollsOnly (c : Cluster C) : ∀ e, Decidable (PollsOnly c e)
  | .advanceCommitIndex i => decidablePolls (c.servers i)
  | .election _ | .requestVote _ _ | .requestVoteReply _ _ | .requestVoteFailed _ _
  | .countVote _ _ | .gatherVotes _ | .concludeElection _ | .appendMissingEntries _ _ _
  | .appendEntries _ | .handleAppendReply _ | .installSnapshot _ | .installSnapshotReply _
  | .start _ _ | .apply _ | .snapshot _ _ _ | .crash _ => .isTrue trivial

theorem polls_leads (rf rf' : Raft C) (h : Polls rf) (he : advanceCommitIndex rf = .ok rf')
    (hup : rf.commitIndex < rf'.commitIndex) : rf.state = .leader := by
  rcases advance_commit_outcome he with rfl | ⟨hrun,hlt,⟨e,hentry,hterm⟩,rfl⟩
  · omega
  · rcases h with hl | hlast | hrep | hother
    · exact hl
    · exact hrun.resolve_right (fun hc => hc hlast)
    · have := (largest_loop rf (lastLogIndex rf - rf.commitIndex).toNat (rf.commitIndex + 1)
        (by omega)).2 _ le_rfl hlt
      omega
    · exact absurd hterm (hother e ((to_option_some _ _).mpr hentry))

/-- The prefix up to index `x` of the server's log is settled. -/
def CommitRel (n : ℕ) (a : Past C) (i : ℕ) (x : ℤ) : Prop :=
  ∃ k : ℕ, x = (k:ℤ)-1 ∧ k ≤ (a.log i).length ∧
    Settled (majorities n) a (a.term i) ((a.log i).take k)

/-- The prefix up to index `x` of the leader's log is settled. -/
def LeadRel (n : ℕ) (a : Past C) (t : ℕ) (x : ℤ) : Prop :=
  ∃ k : ℕ, x = (k:ℤ)-1 ∧ k ≤ (a.lead t).length ∧ Settled (majorities n) a t ((a.lead t).take k)

theorem commit_lower (i : ℕ) (x y : ℤ) (h : CommitRel n a i x) (hy : -1 ≤ y) (hyx : y ≤ x) :
    CommitRel n a i y := by
  obtain ⟨k,rfl,hk,hs⟩ := h
  refine ⟨(y+1).toNat,by omega,by omega,settled_below _ _ _ hs ?_⟩
  exact List.take_prefix_take_left (by omega)

theorem lead_grows (hg : Grows a a') (t : ℕ) (x : ℤ) (h : LeadRel n a t x) : LeadRel n a' t x := by
  obtain ⟨k,hx,hk,hs⟩ := h
  refine ⟨k,hx,hk.trans (hg.lead t).length_le,?_⟩
  rw [take_grows hg t k hk]
  exact settled_grows hg t t _ le_rfl hs

theorem commit_keep (hs : Sound n a) (i : ℕ) (hst : Steps (majorities n) i a a') (j : ℕ) (x : ℤ)
    (h : CommitRel n a j x) : CommitRel n a' j x := by
  obtain ⟨k,hx,hk,hset⟩ := h
  obtain ⟨-,hg,hf⟩ := steps_inv hs.inv hst
  have hkept : (a.log j).take k <+: a'.log j := by
    by_cases hj : j = i
    · subst hj
      exact settled_steps hs.inv hst _ hset <| List.take_prefix _ _
    · rw [hf.log j hj]
      exact List.take_prefix _ _
  have hlen := hkept.length_le
  rw [List.length_take, min_eq_left hk] at hlen
  refine ⟨k,hx,hlen,?_⟩
  rw [take_of_stored _ _ k hk hkept]
  exact settled_grows hg _ _ _ (hg.term j) hset

/-- What is settled in the leader's log and stored may be committed. -/
theorem commit_of_lead (hs : Sim n c a) (j p : ℕ) (hp : p ≤ a.ack j (a.term j)) (x : ℤ)
    (hx : x ≤ (p:ℤ)-1) (h : LeadRel n a (a.term j) x) :
    CommitRel n a j x ∧ p ≤ (a.log j).length := by
  obtain ⟨k,rfl,hk,hset⟩ := h
  have hstored := acknowledged_stored hs j p hp
  have hack := hs.sound.inv.ack_le j (a.term j)
  have hlen := hstored.length_le
  rw [List.length_take, min_eq_left (by omega)] at hlen
  refine ⟨⟨k,rfl,by omega,?_⟩,hlen⟩
  have htake : (a.lead (a.term j)).take k <+: (a.lead (a.term j)).take p :=
    List.take_prefix_take_left (by omega)
  rw [take_of_stored _ _ k hk (htake.trans hstored)]
  exact hset

structure Commits (n : ℕ) (c : Cluster C) (a : Past C) : Prop where
  covered : Covered c a
  peer : ∀ i, CommitRel n a i (c.servers i).commitIndex
  appends : ∀ r ∈ c.appendCalls, LeadRel n a r.args.term r.args.leaderCommitIndex ∧
    r.args.leaderCommitIndex ≤ r.args.prevLogIndex + r.args.entries.length
  snapshots : ∀ r ∈ c.snapshotCalls, LeadRel n a r.args.term r.args.lastIncludedIndex
  hollow : ∀ j t, LeadRel n a t ((a.hollow j t:ℤ)-1)

theorem commits_initial (C : Type) (n : ℕ) :
    Commits n (RaftCluster.initial C n) LeaderProtocol.initial where
  covered := covered_initial C n
  peer i := ⟨0,rfl,Nat.zero_le _,Or.inl rfl⟩
  appends r hr := by simp [RaftCluster.initial] at hr
  snapshots r hr := by simp [RaftCluster.initial] at hr
  hollow j t := ⟨0,rfl,Nat.zero_le _,Or.inl rfl⟩

/-- A majority that acknowledged a prefix ending in the current term settles
it: either all of it is stored, or a snapshot already covers it. -/
theorem raise_settled (h : Commits n c a) (i k : ℕ) (hcl : Closed a (a.term i) (k+1)) (v : Finset ℕ)
    (hv : v ⊆ Finset.range n) (hcard : n/2+1 ≤ v.card)
    (hclaim : ∀ j ∈ v, k+1 ≤ claimed a j (a.term i)) :
    Settled (majorities n) a (a.term i) ((a.lead (a.term i)).take (k+1)) := by
  by_cases hall : ∀ j ∈ v, k+1 ≤ a.ack j (a.term i)
  · exact Or.inr ⟨_,k+1,le_rfl,⟨hcl,{j | j ∈ v},⟨v,hv,hcard,fun _ hj => hj⟩,hall⟩,
      List.prefix_rfl⟩
  · push Not at hall
    obtain ⟨j,hj,hack⟩ := hall
    have := hclaim j hj
    rw [claimed] at this
    obtain ⟨m,hm,-,hset⟩ := h.hollow j (a.term i)
    exact settled_below _ _ _ hset <| List.take_prefix_take_left (by omega)

section
variable (hs : Sim n c a) (h : Commits n c a)
include hs h

theorem new_append (i term server : ℕ) (args : AppendEntriesArgs C)
    (he : appendMissingEntries (c.servers i) term server = .ok (some (.appendEntries args))) :
    LeadRel n a args.term args.leaderCommitIndex ∧
      args.leaderCommitIndex ≤ args.prevLogIndex + args.entries.length := by
  obtain ⟨b,w⟩ := (hs.peer i).window
  obtain ⟨k,hk,hlen,hset⟩ := h.peer i
  rcases append_missing_outcome term server _ he with
    hn | ⟨hl,ht,⟨_,-,hreq⟩ | ⟨next,prev,missing,-,hmiss,hreq⟩⟩
  · simp at hn
  · simp at hreq
  · simp only [Option.some.injEq, Request.appendEntries.injEq] at hreq
    have hlog := hs.sound.inv.log_lead i ((hs.peer i).leader hl)
    rw [(hs.peer i).term] at ht
    rw [hlog, ht] at hset
    rw [hlog, ht] at hlen
    subst hreq
    refine ⟨⟨k,hk,hlen,hset⟩,?_⟩
    have hlast : (c.servers i).commitIndex ≤ lastLogIndex (c.servers i) := by
      rw [last_log_index w, hk, hlog, ht]
      omega
    rcases hmiss with ⟨hge,hm⟩ | ⟨hge,rfl⟩
    · rw [logEntries, sliceFrom] at hm
      split_ifs at hm with hr
      rw [← Except.ok.inj hm, List.length_drop]
      simp only [lastLogIndex] at hlast hge ⊢
      omega
    · simp only [List.length_nil]
      omega

theorem new_snapshot (i term server : ℕ) (args : InstallSnapshotArgs)
    (he : appendMissingEntries (c.servers i) term server = .ok (some (.installSnapshot args))) :
    LeadRel n a args.term args.lastIncludedIndex := by
  obtain ⟨b,w⟩ := (hs.peer i).window
  rcases append_missing_outcome term server _ he with hn | ⟨hl,ht,⟨_,-,hreq⟩ | ⟨_,_,_,-,-,hreq⟩⟩
  · simp at hn
  · simp only [Option.some.injEq, Request.installSnapshot.injEq] at hreq
    have hlog := hs.sound.inv.log_lead i ((hs.peer i).leader hl)
    obtain ⟨k,hk,hlen,hset⟩ := commit_lower i _ (c.servers i).lastIncludedIndex (h.peer i)
      (by rw [w.included]; omega) (hs.peer i).committed
    rw [hlog, ← (hs.peer i).term] at hset
    rw [hlog, ← (hs.peer i).term] at hlen
    subst hreq
    exact ⟨k,hk,hlen,hset⟩
  · simp at hreq

/-- A request that is skipped ends in a prefix that the follower's snapshot
covers, and the snapshot is settled. -/
theorem skipped_settled (r : Call (AppendEntriesArgs C) AppendEntriesReply) (p : ℕ)
    (hrel : AppendRel n a r p) (hskip : Skips (c.servers r.callee) r.args)
    (hend : r.args.prevLogIndex + r.args.entries.length ≤ (c.servers r.callee).lastIncludedIndex) :
    LeadRel n a r.args.term (((p+r.args.entries.length:ℕ):ℤ)-1) := by
  obtain ⟨b,w⟩ := (hs.peer r.callee).window
  have hprev := hrel.prev
  obtain ⟨k,hk,hlen,hset⟩ := commit_lower r.callee _ (c.servers r.callee).lastIncludedIndex
    (h.peer r.callee) (by rw [w.included]; omega) (hs.peer r.callee).committed
  have hle : a.term r.callee ≤ r.args.term := (hs.peer r.callee).term ▸ hskip.1
  have hbelow := settled_lead hs.sound.inv _ _ _ hset hle (by simp [hrel.leader])
  refine ⟨p+r.args.entries.length,rfl,hrel.length,?_⟩
  refine settled_below _ _ _ (settled_grows (grows_refl a) _ _ _ hle hset) ?_
  have htake := List.prefix_iff_eq_take.mp hbelow
  rw [htake, List.length_take, min_eq_left hlen]
  exact List.take_prefix_take_left (by omega)

theorem commits_peer (e : Event C) (i : ℕ) (hpolls : PollsOnly c e) (hruns : Runs n c e c')
    (hst : Steps (majorities n) i a a') (hs' : Sim n c' a') (heff : Effect n c a a' e) (j : ℕ) :
    CommitRel n a' j (c'.servers j).commitIndex := by
  have hkeep := commit_keep hs.sound i hst j _ (h.peer j)
  have hg := (steps_inv hs.sound.inv hst).2.1
  rcases runs_server hs e hruns j with hsame | ⟨s,m,hsec,hran⟩
  · rw [hsame]
    exact hkeep
  rcases commit_section (peer_ordered hs j) (hs.peer j).persisted s m hran with
    hc | ⟨args,reply,rfl,hae,hskip,hsucc,hterm,hc⟩ | ⟨args,reply,rfl,his,hlow,hc⟩ |
    ⟨rfl,hadv,hup⟩ | ⟨-,hc⟩
  · rw [hc]
    exact hkeep
  · obtain ⟨k,r,rfl,hk,rfl,rfl⟩ := append_origin e j args hsec
    obtain ⟨p,hrel⟩ := hs.appends r (List.mem_of_getElem? hk)
    obtain ⟨hlead,hcommit⟩ := h.appends r (List.mem_of_getElem? hk)
    rcases heff r p _ reply hk hrel hae with ⟨hsk,-⟩ | ⟨-,hstored⟩
    · exact absurd hsk.2 hskip
    obtain ⟨ht,hack⟩ := hstored hsucc hterm
    have hprev := hrel.prev
    obtain ⟨b,w⟩ := (hs'.peer r.callee).window
    rw [← ht] at hack hlead
    obtain ⟨hcr,hlen⟩ := commit_of_lead hs' r.callee _ hack _ (by push_cast; omega)
      (lead_grows hg _ _ hlead)
    rw [hc, last_log_index w, min_eq_left (by omega)]
    exact hcr
  · obtain ⟨k,r,rfl,hk,rfl,rfl⟩ := install_origin e j args hsec
    obtain ⟨p,hrel⟩ := hs.snapshots r (List.mem_of_getElem? hk)
    have hlead := h.snapshots r (List.mem_of_getElem? hk)
    obtain ⟨ht,hack⟩ := heff.2 r p _ reply hk hrel his hlow
    rw [← ht] at hack hlead
    have hcr := (commit_of_lead hs' r.callee p hack _ (le_of_eq hrel.last)
      (lead_grows hg _ _ hlead)).1
    rw [hc]
    rcases max_choice (c.servers r.callee).commitIndex r.args.lastIncludedIndex with hm | hm
    · rw [hm]
      exact hkeep
    · rw [hm]
      exact hcr
  · obtain rfl := advance_origin e j hsec
    have hl := polls_leads _ _ hpolls hadv hup
    obtain ⟨k,hk,-,hlen,hcl,v,hv,hcard,hclaim⟩ := raise_facts hs j hl _ hadv hup
    have hset := raise_settled h j k hcl v hv hcard hclaim
    rw [hk]
    refine commit_keep hs.sound i hst j k ⟨k+1,by push_cast; omega,hlen,?_⟩
    rwa [hs.sound.inv.log_lead j ((hs.peer j).leader hl)]
  · rw [hc]
    obtain ⟨b,w⟩ := (hs.peer j).window
    exact commit_keep hs.sound i hst j _ (commit_lower j _ _ (h.peer j)
      (by rw [w.included]; omega) (hs.peer j).committed)

theorem commits_hollow (e : Event C) (hcovers : Covers c e) (hruns : Runs n c e c')
    (hg : Grows a a') (heff : Effect n c a a' e) (j t : ℕ) :
    LeadRel n a' t ((a'.hollow j t:ℤ)-1) := by
  have hold := lead_grows hg t _ (h.hollow j t)
  by_cases he : ∃ k, e = .appendEntries k
  · obtain ⟨k,rfl⟩ := he
    cases hruns with
    | appendEntries _ r rf reply hk hn hae =>
      obtain ⟨p,hrel⟩ := hs.appends r (List.mem_of_getElem? hk)
      rcases heff r p rf reply hk hrel hae with ⟨hskip,-,hhol⟩ | ⟨hhol,-⟩
      · have hnew := lead_grows hg _ _ (skipped_settled hs h r p hrel hskip (hcovers r hk hskip))
        rw [hhol]
        simp only [set2]
        split_ifs with hjt
        · obtain ⟨rfl,rfl⟩ := hjt
          rcases max_choice (a.hollow r.callee r.args.term) (p+r.args.entries.length) with hm | hm
          · rw [hm]
            exact hold
          · rw [hm]
            exact hnew
        · exact hold
      · rw [hhol]
        exact hold
  · rw [effect_hollow e c a a' heff (fun k hk => he ⟨k,hk⟩)]
    exact hold

end

/-- One event keeps committed prefixes settled. -/
theorem commits_carried : Carried (C := C) n (fun c e => PollsOnly c e ∧ Covers c e)
    (Commits n) := by
  intro c e c' i a a' hs h hok hruns hst hs' heff
  have hg := (steps_inv hs.sound.inv hst).2.1
  refine ⟨covered_carried c e c' i a a' hs h.covered hok.2 hruns hst hs' heff,
    commits_peer hs h e i hok.1 hruns hst hs' heff,?_,?_,commits_hollow hs h e hok.2 hruns hg heff⟩
  · intro r hr
    rcases runs_append_calls n c c' e hruns r hr with ⟨r0,hr0,hargs⟩ | ⟨x,term,server,he⟩
    · rw [← hargs]
      exact ⟨lead_grows hg _ _ (h.appends r0 hr0).1,(h.appends r0 hr0).2⟩
    · obtain ⟨h1,h2⟩ := new_append hs h x term server r.args he
      exact ⟨lead_grows hg _ _ h1,h2⟩
  · intro r hr
    rcases runs_snapshot_calls n c c' e hruns r hr with ⟨r0,hr0,hargs⟩ | ⟨x,term,server,he⟩
    · rw [← hargs]
      exact lead_grows hg _ _ (h.snapshots r0 hr0)
    · exact lead_grows hg _ _ (new_snapshot hs h x term server r.args he)

/-- The persisted log has this entry at this index, or a snapshot covers it. -/
def Stored (rf : Raft C) (x : ℤ) (e : LogEntry C) : Prop :=
  x ≤ (readPersist rf.persister.raftstate).lastIncludedIndex ∨
    load (readPersist rf.persister.raftstate).log
      (x - ((readPersist rf.persister.raftstate).lastIncludedIndex + 1)) = .ok e

theorem stored_whole (hs : Sim n c a) (j k : ℕ) (e : LogEntry C) (he : (a.log j)[k]? = some e) :
    Stored (c.servers j) k e := by
  obtain ⟨b,w⟩ := (hs.peer j).window
  rw [Stored, (hs.peer j).persisted]
  simp only [saved, w.included]
  rcases lt_or_ge k b with hlt | hge
  · exact Or.inl (by omega)
  · right
    rw [load_ok]
    refine ⟨by omega,?_⟩
    have hkb : ((k:ℤ)-((b:ℤ)-1+1)).toNat = k-b := by omega
    rw [hkb, log_getElem w k hge]
    exact he

/-- In every run in which only leaders find something to commit and skipped
requests end below the snapshot, a server that raises its commit index in the
polling loop leads, and a majority has stored the entry it commits. -/
theorem commit_quorum (n : ℕ) (es : List (Event C)) (c c' : Cluster C) (s : ℕ)
    (hm : Meets (step n) (fun c e => PollsOnly c e ∧ Covers c e) (RaftCluster.initial C n)
      (es ++ [.advanceCommitIndex s]))
    (h : exec n (RaftCluster.initial C n) es = some c)
    (hstep : step n c (.advanceCommitIndex s) = some c')
    (hup : (c.servers s).commitIndex < (c'.servers s).commitIndex) :
    (c.servers s).state = .leader ∧
    ∃ e, Retains (c.servers s) (c'.servers s).commitIndex e ∧
      ∃ v : Finset ℕ, v ⊆ Finset.range n ∧ majority (c.servers s) ≤ v.card ∧
        ∀ j ∈ v, Stored (c.servers j) (c'.servers s).commitIndex e := by
  rw [meets_append] at hm
  obtain ⟨a,-,hs,hcom⟩ := sim_run _ (Commits n) commits_carried es (sim_initial C n)
    (commits_initial C n) hm.1 h
  have hpolls : Polls (c.servers s) := (hm.2 c h).1.1
  cases step_runs n c c' _ hstep with
  | advanceCommitIndex _ rf hin he =>
    simp only [withServer, Function.update_self] at hup ⊢
    have hl := polls_leads _ rf hpolls he hup
    obtain ⟨k,hk,hincl,hlen,hcl,v,hv,hcard,hclaim⟩ := raise_facts hs s hl rf he hup
    have hset := raise_settled hcom s k hcl v hv hcard hclaim
    have hlog := hs.sound.inv.log_lead s ((hs.peer s).leader hl)
    obtain ⟨e,hek⟩ : ∃ e, (a.log s)[k]? = some e := ⟨_,List.getElem?_eq_getElem hlen⟩
    rw [hk]
    refine ⟨hl,e,⟨hincl,?_⟩,v,hv,?_,fun j hj => ?_⟩
    · obtain ⟨b,w⟩ := (hs.peer s).window
      rw [w.included] at hincl
      exact log_entry_get w k e (by omega) hek
    · rw [majority, (hs.peer s).peers]
      exact hcard
    · have hcj := hclaim j hj
      rcases le_total (a.ack j (a.term s)) (a.hollow j (a.term s)) with hle | hle
      · left
        rw [claimed, max_eq_right hle] at hcj
        have h1 := hcom.covered j (a.term s)
        have h2 := (peer_ordered hs j).base
        rw [(hs.peer j).persisted]
        simp only [saved]
        omega
      · rw [claimed, max_eq_left hle] at hcj
        obtain ⟨rest,hrest⟩ := settled_stored hs.sound.inv _ _ hset j hcj
        apply stored_whole hs j k e
        rw [← hrest, ← hlog, List.getElem?_append_left (by rw [List.length_take]; omega),
          List.getElem?_take, if_pos (Nat.lt_succ_self k), hek]

theorem commit_quorum_replicated : ∃ c c',
    RaftCluster.exec 3 (RaftCluster.initial ℕ 3) (replicated ++ [.handleAppendReply 0]) = some c ∧
    step 3 c (.advanceCommitIndex 0) = some c' ∧
    (c.servers 0).commitIndex < (c'.servers 0).commitIndex ∧ (c.servers 0).state = .leader := by
  obtain ⟨c,hc⟩ := Option.isSome_iff_exists.mp (by decide +kernel :
    (RaftCluster.exec 3 (RaftCluster.initial ℕ 3)
      (replicated ++ [.handleAppendReply 0])).isSome = true)
  have hup : ∀ d ∈ RaftCluster.exec 3 (RaftCluster.initial ℕ 3)
      (replicated ++ [.handleAppendReply 0]),
      (step 3 d (.advanceCommitIndex 0)).isSome = true ∧
      ∀ d' ∈ step 3 d (.advanceCommitIndex 0),
        (d.servers 0).commitIndex < (d'.servers 0).commitIndex := by decide +kernel
  obtain ⟨c',hc'⟩ := Option.isSome_iff_exists.mp (hup c hc).1
  exact ⟨c,c',hc,hc',(hup c hc).2 c' hc',(commit_quorum 3 _ c c' 0 (by decide +kernel) hc hc'
    ((hup c hc).2 c' hc')).1⟩

/-- A follower that has just stored one entry polls its own match indices,
which are still those of `Make`. -/
def followerPolls : List (Event ℕ) :=
  [.election 0, .requestVote 0 1, .requestVote 0 2, .requestVoteReply 0 1, .requestVoteReply 0 2,
    .countVote 0 1, .countVote 0 2, .gatherVotes 0, .concludeElection 0, .start 0 (some 7),
    .appendMissingEntries 0 1 1, .appendEntries 0]

theorem follower_commits : ∃ c c',
    RaftCluster.exec 5 (RaftCluster.initial ℕ 5) followerPolls = some c ∧
    step 5 c (.advanceCommitIndex 1) = some c' ∧
    (c.servers 1).commitIndex < (c'.servers 1).commitIndex ∧ (c.servers 1).state = .follower ∧
    ∀ j ∈ [2, 3, 4], (readPersist (c.servers j).persister.raftstate).log = [] :=
  ⟨_,_,rfl,rfl,by decide +kernel,by decide +kernel,by decide +kernel⟩

end Mitdist.CommitSafety
