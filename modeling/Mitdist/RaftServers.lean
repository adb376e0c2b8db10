import Mitdist.RaftSimulation
import Mitdist.RaftIndices

/-!
# An event of a cluster is a section of one instance

What is known about single instances holds of every server of a cluster:
an event leaves a server alone or runs one section on it, with the arguments
that the call in flight carries. A cluster keeps the logs of its servers in
order, so that no server's base ever moves back.
-/

set_option autoImplicit false

namespace Mitdist.RaftServers
open Mitdist.RaftPeer Mitdist.RaftHandlers Mitdist.RaftWindow Mitdist.RaftCluster
open Mitdist.RaftOutcomes Mitdist.RaftInstance Mitdist.RaftIndices Mitdist.RaftEvents
open Mitdist.RaftRelation Mitdist.RaftSimulation Mitdist.LeaderProtocol

variable {C : Type} {n : ℕ} {c c' : Cluster C} {a a' : Past C} {rf rf' : Raft C}

def sectionOf (c : Cluster C) : Event C → Option (ℕ × Section C)
  | .election i => some (i, .election)
  | .requestVote k j => do
    let e ← c.elections[k]?
    return (j, .requestVote e.args)
  | .requestVoteReply k j => do
    let e ← c.elections[k]?
    let reply ← (e.calls j).reply
    return (e.me, .handleHigherTerm reply.term)
  | .concludeElection k => do
    let e ← c.elections[k]?
    let elected ← e.elected
    return (e.me, .concludeElection e.args.term elected)
  | .appendEntries k => do
    let r ← c.appendCalls[k]?
    return (r.callee, .appendEntries r.args)
  | .handleAppendReply k => do
    let r ← c.appendCalls[k]?
    let reply ← r.reply
    return (r.caller, .handleAppendReply r.callee r.args reply)
  | .installSnapshot k => do
    let r ← c.snapshotCalls[k]?
    return (r.callee, .installSnapshot r.args)
  | .installSnapshotReply k => do
    let r ← c.snapshotCalls[k]?
    let reply ← r.reply
    return (r.caller, .handleHigherTerm reply.term)
  | .start i command => some (i, .start command)
  | .advanceCommitIndex i => some (i, .advanceCommitIndex)
  | .apply i => some (i, .apply)
  | .snapshot i index bytes => some (i, .snapshot index bytes)
  | .crash i => some (i, .crash)
  | _ => none

theorem snapshot_origin (e : Event C) (j : ℕ) (index : ℤ) (bytes : Bytes)
    (h : sectionOf c e = some (j, .snapshot index bytes)) : e = .snapshot j index bytes := by
  cases e <;> simp [sectionOf, Option.bind_eq_some_iff] at h
  obtain ⟨rfl,rfl,rfl⟩ := h
  rfl

theorem install_origin (e : Event C) (j : ℕ) (args : InstallSnapshotArgs)
    (h : sectionOf c e = some (j, .installSnapshot args)) :
    ∃ k r, e = .installSnapshot k ∧ c.snapshotCalls[k]? = some r ∧ r.callee = j ∧
      r.args = args := by
  cases e <;> simp [sectionOf, Option.bind_eq_some_iff] at h
  obtain ⟨r,hk,rfl,rfl⟩ := h
  exact ⟨_,r,rfl,hk,rfl,rfl⟩

theorem append_origin (e : Event C) (j : ℕ) (args : AppendEntriesArgs C)
    (h : sectionOf c e = some (j, .appendEntries args)) :
    ∃ k r, e = .appendEntries k ∧ c.appendCalls[k]? = some r ∧ r.callee = j ∧ r.args = args := by
  cases e <;> simp [sectionOf, Option.bind_eq_some_iff] at h
  obtain ⟨r,hk,rfl,rfl⟩ := h
  exact ⟨_,r,rfl,hk,rfl,rfl⟩

theorem append_reply_origin (e : Event C) (j server : ℕ) (args : AppendEntriesArgs C)
    (reply : AppendEntriesReply)
    (h : sectionOf c e = some (j, .handleAppendReply server args reply)) :
    ∃ k r, e = .handleAppendReply k ∧ c.appendCalls[k]? = some r ∧ r.reply = some reply ∧
      r.caller = j ∧ r.callee = server ∧ r.args = args := by
  cases e <;> simp [sectionOf, Option.bind_eq_some_iff] at h
  obtain ⟨r,hk,hy,hrest⟩ := h
  exact ⟨_,r,rfl,hk,hy,hrest⟩

theorem advance_origin (e : Event C) (j : ℕ)
    (h : sectionOf c e = some (j, .advanceCommitIndex)) : e = .advanceCommitIndex j := by
  cases e <;> simp [sectionOf, Option.bind_eq_some_iff] at h
  obtain rfl := h
  rfl

theorem apply_origin (e : Event C) (j : ℕ) (h : sectionOf c e = some (j, .apply)) :
    e = .apply j := by
  cases e <;> simp [sectionOf, Option.bind_eq_some_iff] at h
  rw [h]

theorem crash_origin (e : Event C) (j : ℕ) (h : sectionOf c e = some (j, .crash)) :
    e = .crash j := by
  cases e <;> simp [sectionOf, Option.bind_eq_some_iff] at h
  rw [h]

theorem server_of (i : ℕ) (rf : Raft C) (s : Section C) (m : Option (ApplyMsg C)) (e : Event C)
    (hs : c'.servers = Function.update c.servers i rf) (he : sectionOf c e = some (i, s))
    (hr : Ran (c.servers i) s rf m) (j : ℕ) :
    c'.servers j = c.servers j ∨
      ∃ s m, sectionOf c e = some (j, s) ∧ Ran (c.servers j) s (c'.servers j) m := by
  by_cases hj : j = i
  · subst hj
    exact Or.inr ⟨s,m,he,by simpa [hs] using hr⟩
  · exact Or.inl (by simp [hs, hj])

theorem runs_server (h : Sim n c a) (e : Event C) (hr : Runs n c e c') (j : ℕ) :
    c'.servers j = c.servers j ∨
      ∃ s m, sectionOf c e = some (j, s) ∧ Ran (c.servers j) s (c'.servers j) m := by
  cases hr with
  | election i rf args hi hs he => exact server_of i rf _ _ _ rfl rfl (.election rf args he) j
  | requestVote k x e rf reply hk hx hr he =>
    exact server_of x rf _ _ _ rfl (by simp [sectionOf, hk]) (.requestVote e.args rf reply he) j
  | requestVoteReply k x e reply hk hr hs =>
    exact server_of e.me _ _ _ _ rfl (by simp [sectionOf, hk, hr]) (.handleHigherTerm reply.term) j
  | requestVoteFailed k x e hk hs => exact Or.inl rfl
  | countVote k x e reply hk hr hs => exact Or.inl rfl
  | gatherVotes k e hk => exact Or.inl rfl
  | concludeElection k e elected rf hk hel he =>
    exact server_of e.me rf _ _ _ rfl (by simp [sectionOf, hk, hel])
      (.concludeElection e.args.term elected rf he) j
  | appendMissingEntries i term server request hi hs hne he =>
    rcases request with - | - | - <;> exact Or.inl rfl
  | appendEntries k r rf reply hk hn he =>
    exact server_of r.callee rf _ _ _ rfl (by simp [sectionOf, hk])
      (.appendEntries r.args rf reply he) j
  | handleAppendReply k r rf reply hk hy he =>
    exact server_of r.caller rf _ _ _ rfl (by simp [sectionOf, hk, hy])
      (.handleAppendReply r.callee r.args reply rf he) j
  | installSnapshot k r rf reply hk he =>
    exact server_of r.callee rf _ _ _ rfl (by simp [sectionOf, hk])
      (.installSnapshot r.args rf reply he) j
  | installSnapshotReply k r reply hk hy =>
    exact server_of r.caller _ _ _ _ rfl (by simp [sectionOf, hk, hy])
      (.handleHigherTerm reply.term) j
  | start i command rf index term isLeader hi he =>
    exact server_of i rf _ _ _ rfl rfl (.start command rf _ he) j
  | advanceCommitIndex i rf hi he =>
    exact server_of i rf _ _ _ rfl rfl (.advanceCommitIndex rf he) j
  | apply i rf msg hi hs he => exact server_of i rf _ _ _ rfl rfl (.apply rf msg hs he) j
  | snapshot i index bytes rf hi he =>
    exact server_of i rf _ _ _ rfl rfl (.snapshot index bytes rf he) j
  | crash i hi =>
    refine server_of i _ .crash none _ rfl rfl ?_ j
    have hp := h.peer i
    rw [← hp.peers]
    nth_rewrite 3 [← hp.me]
    exact .crash

theorem peer_ordered (h : Sim n c a) (i : ℕ) : Ordered (c.servers i) := by
  obtain ⟨b,w⟩ := (h.peer i).window
  have hi := indexed_rooted n a h.sound _ (h.sound.inv.log_rooted i)
  refine ⟨by rw [w.base, w.included]; omega,fun k e he => ?_⟩
  rw [w.log, List.getElem?_drop] at he
  rw [hi _ e he, w.base]
  push_cast
  rfl

/-- Only a snapshot moves what an instance has discarded, and only forward. -/
theorem included_section (ho : Ordered rf) (hp : readPersist rf.persister.raftstate = saved rf)
    (s : Section C) (m : Option (ApplyMsg C)) (hr : Ran rf s rf' m) :
    rf'.lastIncludedIndex = rf.lastIncludedIndex ∨
      rf.lastIncludedIndex < rf'.lastIncludedIndex ∧
        ((∃ index bytes, s = .snapshot index bytes) ∨
          ∃ args, s = .installSnapshot args ∧ rf'.lastIncludedIndex = args.lastIncludedIndex) := by
  by_cases ha : s = .apply
  · subst ha
    cases hr with
    | apply _ msg _ he =>
      rcases apply_outcome msg he with ⟨-,rfl,-⟩ | ⟨-,rfl,-⟩ <;> exact Or.inl rfl
  by_cases hc : s = .crash
  · subst hc
    cases hr with
    | crash => exact Or.inl (by simp only [make, hp, saved])
  obtain ⟨-,-,⟨hsame,-⟩ | ⟨index,bytes,hs,hlow,hincl,-⟩ | ⟨args,hs,-,hlow,hincl,-⟩⟩ :=
    moved_section ho s m hr ha hc
  · exact Or.inl hsame
  · exact Or.inr ⟨hincl ▸ hlow,Or.inl ⟨index,bytes,hs⟩⟩
  · exact Or.inr ⟨hincl ▸ hlow,Or.inr ⟨args,hs,hincl⟩⟩

/-- The sections that move the commit index. -/
theorem commit_section (ho : Ordered rf) (hp : readPersist rf.persister.raftstate = saved rf)
    (s : Section C) (m : Option (ApplyMsg C)) (hr : Ran rf s rf' m) :
    rf'.commitIndex = rf.commitIndex ∨
    (∃ args reply, s = .appendEntries args ∧ appendEntries rf args = .ok (rf', reply) ∧
      ¬ args.prevLogIndex < rf.lastIncludedIndex ∧ reply.success = true ∧
      reply.term = args.term ∧ rf'.commitIndex = min args.leaderCommitIndex (lastLogIndex rf')) ∨
    (∃ args reply, s = .installSnapshot args ∧ installSnapshot rf args = .ok (rf', reply) ∧
      rf.lastIncludedIndex < rf'.lastIncludedIndex ∧
      rf'.commitIndex = max rf.commitIndex args.lastIncludedIndex) ∨
    (s = .advanceCommitIndex ∧ advanceCommitIndex rf = .ok rf' ∧ rf.commitIndex < rf'.commitIndex) ∨
    (s = .crash ∧ rf'.commitIndex = rf.lastIncludedIndex) := by
  cases hr with
  | start command _ r he => exact Or.inl (start_quiet command r he).commitIndex
  | snapshot index bytes _ he =>
    rcases snapshot_indices ho index bytes he with rfl | ⟨-,-,-,-,hc,-⟩
    · exact Or.inl rfl
    · exact Or.inl hc
  | requestVote args _ reply he => exact Or.inl (request_vote_quiet args reply he).commitIndex
  | appendEntries args _ reply he =>
    rcases append_entries_indices args reply he with hq | ⟨-,hskip,hsucc,ht,-,hq⟩
    · exact Or.inl hq.commitIndex
    · exact Or.inr (Or.inl ⟨args,reply,rfl,he,hskip,hsucc,ht,hq.commitIndex⟩)
  | installSnapshot args _ reply he =>
    rcases install_snapshot_indices ho args reply he with ⟨hq,-⟩ | ⟨-,hlow,hincl,-,hc,-⟩
    · exact Or.inl hq.commitIndex
    · exact Or.inr (Or.inr (Or.inl ⟨args,reply,rfl,he,hincl ▸ hlow,hc⟩))
  | handleHigherTerm term => exact Or.inl (higher_term_quiet rf term).commitIndex
  | handleAppendReply server args reply _ he =>
    exact Or.inl (append_reply_quiet server args reply he).commitIndex
  | election _ args he => exact Or.inl (election_quiet args he).commitIndex
  | concludeElection preGatherTerm elected _ he =>
    exact Or.inl (conclude_quiet preGatherTerm elected he).commitIndex
  | advanceCommitIndex _ he =>
    rcases advance_commit_outcome he with rfl | ⟨-,hlt,-,rfl⟩
    · exact Or.inl rfl
    · exact Or.inr (Or.inr (Or.inr (Or.inl ⟨rfl,he,hlt⟩)))
  | apply _ msg _ he =>
    rcases apply_outcome msg he with ⟨-,rfl,-⟩ | ⟨-,rfl,-⟩ <;> exact Or.inl rfl
  | crash => exact Or.inr (Or.inr (Or.inr (Or.inr ⟨rfl,by simp only [make, hp, saved]⟩)))

theorem included_monotone (h : Sim n c a) (e : Event C) (hr : Runs n c e c') (j : ℕ) :
    (c.servers j).lastIncludedIndex ≤ (c'.servers j).lastIncludedIndex := by
  rcases runs_server h e hr j with hs | ⟨s,m,-,hran⟩
  · exact le_of_eq (by rw [hs])
  · rcases included_section (peer_ordered h j) (h.peer j).persisted s m hran with hi | ⟨hi,-⟩ <;>
      omega

theorem base_monotone (h : Sim n c a) (h' : Sim n c' a') (e : Event C) (hr : Runs n c e c')
    (j : ℕ) : (c.servers j).baseIndex ≤ (c'.servers j).baseIndex := by
  have hb := (peer_ordered h j).base
  have hb' := (peer_ordered h' j).base
  have hincluded := included_monotone h e hr j
  omega

theorem prepared_leader (t : ℕ)
    (h : (stopCandidacy (handleHigherTerm rf t) t).state = .leader) :
    stopCandidacy (handleHigherTerm rf t) t = rf ∧ t ≤ rf.currentTerm := by
  unfold stopCandidacy at h ⊢
  split_ifs at h ⊢
  obtain ⟨hsame,hle⟩ := higher_term_leader rf t h
  exact ⟨hsame,hle⟩

/-- The instance led before and goes on to lead the same term. -/
def StillLeads (rf rf' : Raft C) : Prop :=
  rf.state = .leader ∧ rf'.currentTerm = rf.currentTerm

theorem append_entries_leads (args : AppendEntriesArgs C) (reply : AppendEntriesReply)
    (h : appendEntries rf args = .ok (rf', reply)) (hl : rf'.state = .leader) :
    StillLeads rf rf' ∧ args.term ≤ rf.currentTerm ∧ rf'.nextIndex = rf.nextIndex ∧
      rf'.matchIndex = rf.matchIndex := by
  have hrf1 : rf'.state =
      (stopCandidacy (handleHigherTerm rf args.term) args.term).state →
      StillLeads rf (stopCandidacy (handleHigherTerm rf args.term) args.term) ∧
        args.term ≤ rf.currentTerm ∧
        stopCandidacy (handleHigherTerm rf args.term) args.term = rf := by
    intro hs
    rw [hs] at hl
    obtain ⟨hsame,hle⟩ := prepared_leader args.term hl
    rw [hsame] at hl ⊢
    exact ⟨⟨hl,rfl⟩,hle,rfl⟩
  generalize hdef : stopCandidacy (handleHigherTerm rf args.term) args.term = rf1 at hrf1
  rcases (append_entries_outcome args reply rf1 hdef.symm h).2 with
    ⟨-,rfl,-⟩ | ⟨-,-,-,-,rf2,hrf2,rfl⟩ | ⟨-,-,rfl⟩
  · obtain ⟨h1,h2,h3⟩ := hrf1 rfl
    exact ⟨h1,h2,by rw [h3],by rw [h3]⟩
  · have hfollow : (followCommit rf2 args.leaderCommitIndex).state = rf2.state ∧
        (followCommit rf2 args.leaderCommitIndex).currentTerm = rf2.currentTerm ∧
        (followCommit rf2 args.leaderCommitIndex).nextIndex = rf2.nextIndex ∧
        (followCommit rf2 args.leaderCommitIndex).matchIndex = rf2.matchIndex := by
      unfold followCommit
      split_ifs <;> exact ⟨rfl,rfl,rfl,rfl⟩
    obtain ⟨f1,f2,f3,f4⟩ := hfollow
    have hlocal : rf2.state = rf1.state ∧ rf2.currentTerm = rf1.currentTerm ∧
        rf2.nextIndex = rf1.nextIndex ∧ rf2.matchIndex = rf1.matchIndex := by
      rcases append_local_outcome args.entries hrf2 with rfl | ⟨log,rfl⟩ <;>
        exact ⟨rfl,rfl,rfl,rfl⟩
    obtain ⟨g1,g2,g3,g4⟩ := hlocal
    obtain ⟨h1,h2,h3⟩ := hrf1 (f1.trans g1)
    exact ⟨⟨h1.1,(f2.trans g2).trans h1.2⟩,h2,by rw [f3, g3, h3],by rw [f4, g4, h3]⟩
  · obtain ⟨h1,h2,h3⟩ := hrf1 rfl
    exact ⟨h1,h2,by rw [h3],by rw [h3]⟩

theorem install_snapshot_leads (args : InstallSnapshotArgs) (reply : InstallSnapshotReply)
    (h : installSnapshot rf args = .ok (rf', reply)) (hl : rf'.state = .leader) :
    StillLeads rf rf' ∧ args.term ≤ rf.currentTerm ∧ rf'.nextIndex = rf.nextIndex ∧
      rf'.matchIndex = rf.matchIndex := by
  have hrf1 := higher_term_leader rf args.term
  generalize hdef : handleHigherTerm rf args.term = rf1 at hrf1
  rcases install_snapshot_outcome args reply rf1 hdef.symm h with
    ⟨-,rfl⟩ | ⟨-,-,found,rf2,-,hrf2,rfl⟩
  · obtain ⟨rfl,hle⟩ := hrf1 hl
    exact ⟨⟨hl,rfl⟩,hle,rfl,rfl⟩
  · have hbase : rf2.state = rf1.state ∧ rf2.currentTerm = rf1.currentTerm ∧
        rf2.nextIndex = rf1.nextIndex ∧ rf2.matchIndex = rf1.matchIndex := by
      rw [rebase] at hrf2
      split_ifs at hrf2
      · obtain ⟨e,log,-,-,rfl⟩ := trim_outcome _ hrf2
        exact ⟨rfl,rfl,rfl,rfl⟩
      · obtain rfl := Except.ok.inj hrf2
        exact ⟨rfl,rfl,rfl,rfl⟩
    obtain ⟨g1,g2,g3,g4⟩ := hbase
    have hstate : rf1.state = .leader := g1.symm.trans hl
    obtain ⟨rfl,hle⟩ := hrf1 hstate
    exact ⟨⟨hstate,g2⟩,hle,g3,g4⟩

/-- An instance that leads after a section led the same term before it, or
has just been elected. Only `Start` and a reply change a leader's view of the
other servers. -/
theorem leads_section (s : Section C) (m : Option (ApplyMsg C)) (hr : Ran rf s rf' m)
    (hl : rf'.state = .leader) :
    StillLeads rf rf' ∧ (rf'.nextIndex = rf.nextIndex ∧ rf'.matchIndex = rf.matchIndex ∨
      (∃ command, s = .start command) ∨
      ∃ server args reply, s = .handleAppendReply server args reply) ∨
    rf.state = .candidate ∧ becomeLeader rf = .ok rf' := by
  have raised : ∀ t, (handleHigherTerm rf t).state = .leader →
      StillLeads rf (handleHigherTerm rf t) ∧
      (handleHigherTerm rf t).nextIndex = rf.nextIndex ∧
      (handleHigherTerm rf t).matchIndex = rf.matchIndex := by
    intro t ht
    have hsame := (higher_term_leader rf t ht).1
    rw [hsame] at ht ⊢
    exact ⟨⟨ht,rfl⟩,rfl,rfl⟩
  cases hr with
  | start command _ r he =>
    obtain ⟨index,term,isLeader⟩ := r
    obtain ⟨-,hsame,hlead⟩ := start_outcome command index term isLeader he
    by_cases hs : rf.state = .leader
    · obtain ⟨matchIndex,rfl⟩ := hlead hs
      exact Or.inl ⟨⟨hs,rfl⟩,Or.inr (Or.inl ⟨command,rfl⟩)⟩
    · obtain rfl := hsame hs
      exact absurd hl hs
  | snapshot index bytes _ he =>
    rcases snapshot_outcome index bytes he with rfl | ⟨-,-,rf2,ht,rfl⟩
    · exact Or.inl ⟨⟨hl,rfl⟩,Or.inl ⟨rfl,rfl⟩⟩
    · obtain ⟨e,log,-,-,rfl⟩ := trim_outcome _ ht
      exact Or.inl ⟨⟨hl,rfl⟩,Or.inl ⟨rfl,rfl⟩⟩
  | requestVote args _ reply he =>
    rcases request_vote_outcome args reply he with rfl | rfl
    · obtain ⟨h1,h2⟩ := raised args.term hl
      exact Or.inl ⟨h1,Or.inl h2⟩
    · obtain ⟨h1,h2⟩ := raised args.term hl
      exact Or.inl ⟨h1,Or.inl h2⟩
  | appendEntries args _ reply he =>
    obtain ⟨h1,-,h2⟩ := append_entries_leads args reply he hl
    exact Or.inl ⟨h1,Or.inl h2⟩
  | installSnapshot args _ reply he =>
    obtain ⟨h1,-,h2⟩ := install_snapshot_leads args reply he hl
    exact Or.inl ⟨h1,Or.inl h2⟩
  | handleHigherTerm term =>
    obtain ⟨h1,h2⟩ := raised term hl
    exact Or.inl ⟨h1,Or.inl h2⟩
  | handleAppendReply server args reply _ he =>
    rcases append_reply_outcome server args reply he with
      rfl | ⟨hs,-,-,⟨-,-,rfl⟩ | ⟨-,next,rfl⟩⟩
    · obtain ⟨h1,h2⟩ := raised reply.term hl
      exact Or.inl ⟨h1,Or.inl h2⟩
    · exact Or.inl ⟨⟨hs,rfl⟩,Or.inr (Or.inr ⟨server,args,reply,rfl⟩)⟩
    · exact Or.inl ⟨⟨hs,rfl⟩,Or.inr (Or.inr ⟨server,args,reply,rfl⟩)⟩
  | election _ args he =>
    rw [election_outcome args he] at hl
    simp at hl
  | concludeElection preGatherTerm elected _ he =>
    rw [concludeElection] at he
    split_ifs at he with hc
    · exact Or.inr ⟨hc.1,he⟩
    · obtain rfl := Except.ok.inj he
      exact Or.inl ⟨⟨hl,rfl⟩,Or.inl ⟨rfl,rfl⟩⟩
  | advanceCommitIndex _ he =>
    rcases advance_commit_outcome he with rfl | ⟨-,-,-,rfl⟩ <;>
      exact Or.inl ⟨⟨hl,rfl⟩,Or.inl ⟨rfl,rfl⟩⟩
  | apply _ msg _ he =>
    rcases apply_outcome msg he with ⟨-,rfl,-⟩ | ⟨-,rfl,-⟩ <;>
      exact Or.inl ⟨⟨hl,rfl⟩,Or.inl ⟨rfl,rfl⟩⟩
  | crash => simp [make] at hl

/-- The log of a leader is the log of its term, which only grows. -/
theorem leader_log_grows (h : Sim n c a) (h' : Sim n c' a') (hg : Grows a a') (i : ℕ)
    (hl : (c.servers i).state = .leader) (hl' : (c'.servers i).state = .leader)
    (ht : (c'.servers i).currentTerm = (c.servers i).currentTerm) : a.log i <+: a'.log i := by
  rw [(h.peer i).term, (h'.peer i).term] at ht
  rw [h.sound.inv.log_lead i ((h.peer i).leader hl),
    h'.sound.inv.log_lead i ((h'.peer i).leader hl'), ht]
  exact hg.lead _

end Mitdist.RaftServers
