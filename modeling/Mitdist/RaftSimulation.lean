import Mitdist.RaftEvents
import Mitdist.RaftReplication

/-!
# Every run of a cluster is a run of the protocol

Each event is a section of one peer followed by bookkeeping about calls. The
section is matched by steps of that server, and everything recorded about the
other peers and about calls in flight carries over. The only acknowledgements
that are not backed by a stored prefix come from requests below a snapshot.
-/

set_option autoImplicit false

namespace Mitdist.RaftSimulation
open Mitdist.RaftPeer Mitdist.RaftHandlers Mitdist.RaftWindow Mitdist.RaftCluster
open Mitdist.StampedLog Mitdist.LeaderProtocol Mitdist.RaftRelation Mitdist.RaftSections
open Mitdist.RaftOutcomes Mitdist.RaftReplication Mitdist.RaftEvents Mitdist.TransitionSystem

variable {C : Type} {n : ℕ} {c c' : Cluster C} {a a' : Past C}

/-- What an event does to the acknowledgements: a request below the snapshot
is acknowledged without being stored, any other success is stored, and so is
an installed snapshot. -/
def Effect (n : ℕ) (c : Cluster C) (a a' : Past C) : Event C → Prop
  | .appendEntries k => ∀ r p rf reply, c.appendCalls[k]? = some r → AppendRel n a r p →
      appendEntries (c.servers r.callee) r.args = .ok (rf, reply) →
      Skips (c.servers r.callee) r.args ∧ a'.term r.callee = r.args.term ∧
        a'.hollow = set2 a.hollow r.callee r.args.term
          (max (a.hollow r.callee r.args.term) (p+r.args.entries.length)) ∨
      a'.hollow = a.hollow ∧ (reply.success = true → reply.term = r.args.term →
        a'.term r.callee = r.args.term ∧ p+r.args.entries.length ≤ a'.ack r.callee r.args.term)
  | .installSnapshot k => a'.hollow = a.hollow ∧ ∀ r p rf reply, c.snapshotCalls[k]? = some r →
      SnapshotRel n a r p → installSnapshot (c.servers r.callee) r.args = .ok (rf, reply) →
      (c.servers r.callee).lastIncludedIndex < rf.lastIncludedIndex →
      a'.term r.callee = r.args.term ∧ p ≤ a'.ack r.callee r.args.term
  | _ => a'.hollow = a.hollow

def Follows (n : ℕ) (c : Cluster C) (e : Event C) (a : Past C) (c' : Cluster C) : Prop :=
  ∃ i a', Steps (majorities n) i a a' ∧ Sim n c' a' ∧ Effect n c a a' e

theorem sim_initial (C : Type) (n : ℕ) :
    Sim n (RaftCluster.initial C n) LeaderProtocol.initial where
  sound := ⟨inv_initial _,fun t k e h => by simp [LeaderProtocol.initial] at h⟩
  peer i :=
    { me := rfl
      peers := rfl
      nextLength := by simp [RaftCluster.initial, make]
      matchLength := by simp [RaftCluster.initial, make]
      term := rfl
      voted := rfl
      window := ⟨0,rfl,rfl,Nat.zero_le _,rfl,rfl⟩
      committed := le_rfl
      leader := fun hl => by cases hl
      candidate := fun hc => by cases hc
      matched := fun hl => by cases hl
      persisted := rfl }
  elections e he := by simp [RaftCluster.initial] at he
  appends r hr := by simp [RaftCluster.initial] at hr
  snapshots r hr := by simp [RaftCluster.initial] at hr
  started s hs := by simp [RaftCluster.initial] at hs
  distinct := .nil

theorem sim_server (h : Sim n c a) (i : ℕ) (hst : Steps (majorities n) i a a') (hs : Sound n a')
    (rf : Raft C) (hp : Peer n a' i rf) : Sim n (withServer c i rf) a' := by
  obtain ⟨-,hg,hf⟩ := steps_inv h.sound.inv hst
  exact
    { sound := hs
      peer := fun j => by
        by_cases hj : j = i
        · subst hj
          simpa [withServer] using hp
        · simpa [withServer, hj] using peer_frame hg i j hf hj _ (h.peer j)
      elections := fun e he => election_grows hg e (h.elections e he)
      appends := fun r hr => (h.appends r hr).imp (fun p hp => append_grows hg r p hp)
      snapshots := fun r hr => (h.snapshots r hr).imp (fun p hp => snapshot_grows hg r p hp)
      started := fun s hs hl => started_grows hg s (h.started s hs hl)
      distinct := h.distinct }

theorem with_same (c : Cluster C) (i : ℕ) : withServer c i (c.servers i) = c := by
  simp [withServer]

theorem sim_election (h : Sim n c a) (k : ℕ) (e : Election) (he : ElectionRel n a e) :
    Sim n (withElection c k e) a :=
  { h with
    elections := fun x hx => by
      rcases List.mem_or_eq_of_mem_set hx with hx | rfl
      · exact h.elections x hx
      · exact he }

/-- A call that is not finished was not counted. -/
theorem call_stage (e : Election) (he : ElectionRel n a e) (j : ℕ) (s : Stage)
    (hs : (e.calls j).stage ≠ .finished) :
    ElectionRel n a (withCall e j { e.calls j with stage := s }) :=
  { he with
    granted := fun x r hr => by
      by_cases hx : x = j
      · subst hx
        exact he.granted x r (by simpa [withCall] using hr)
      · exact he.granted x r (by simpa [withCall, hx] using hr)
    counted := by
      obtain ⟨u,h1,h2,h3⟩ := he.counted
      refine ⟨u,h1,h2,fun x hx => ⟨(h3 x hx).1,?_⟩⟩
      have hxj : x ≠ j := by
        rintro rfl
        exact hs (h3 x hx).2
      simpa [withCall, hxj] using (h3 x hx).2 }

theorem call_reply (e : Election) (he : ElectionRel n a e) (j : ℕ) (hj : j < n)
    (reply : RequestVoteReply)
    (hv : reply.voteGranted = true → a.vote j e.args.term = some e.me) :
    ElectionRel n a (withCall e j { e.calls j with reply := some reply }) :=
  { he with
    granted := fun x r hr => by
      by_cases hx : x = j
      · subst hx
        have hr' : reply = r := by simpa [withCall] using hr
        exact ⟨hj,fun hg => hv (hr' ▸ hg)⟩
      · exact he.granted x r (by simpa [withCall, hx] using hr)
    counted := by
      obtain ⟨u,h1,h2,h3⟩ := he.counted
      refine ⟨u,h1,h2,fun x hx => ⟨(h3 x hx).1,?_⟩⟩
      by_cases hxj : x = j
      · subst hxj
        simpa [withCall] using (h3 x hx).2
      · simpa [withCall, hxj] using (h3 x hx).2 }

/-- Counting a granted vote adds a voter that was not counted before. -/
theorem call_counted (e : Election) (he : ElectionRel n a e) (j : ℕ) (reply : RequestVoteReply)
    (hr : (e.calls j).reply = some reply) (hs : (e.calls j).stage ≠ .finished) :
    ElectionRel n a { withCall e j { e.calls j with stage := .finished } with
      count := if reply.voteGranted then e.count + 1 else e.count
      finished := e.finished + 1 } := by
  obtain ⟨v,h1,h2,h3⟩ := he.counted
  have hjv : j ∉ v := fun hj => hs (h3 j hj).2
  have hstage : ∀ x ∈ v, ((withCall e j { e.calls j with stage := .finished }).calls x).stage =
      .finished := by
    intro x hx
    have hxj : x ≠ j := fun hc => hjv (hc ▸ hx)
    simpa [withCall, hxj] using (h3 x hx).2
  obtain ⟨hjn,hvote⟩ := he.granted j reply hr
  have hcalls := call_stage e he j .finished hs
  refine { hcalls with counted := ?_, elected := fun hel => ?_ }
  · cases hgr : reply.voteGranted with
    | true =>
      refine ⟨insert j v,?_,by simp [Finset.card_insert_of_notMem hjv, h2],?_⟩
      · exact Finset.insert_subset (Finset.mem_range.mpr hjn) h1
      · intro x hx
        rcases Finset.mem_insert.mp hx with rfl | hx
        · exact ⟨hvote hgr,by simp [withCall]⟩
        · exact ⟨(h3 x hx).1,hstage x hx⟩
    | false => exact ⟨v,h1,by simpa using h2,fun x hx => ⟨(h3 x hx).1,hstage x hx⟩⟩
  · have hle : n/2+1 ≤ e.count := he.elected hel
    cases reply.voteGranted with
    | true => exact hle.trans (Nat.le_succ _)
    | false => exact hle

section
variable (h : Sim n c a)
include h

theorem follows_election (i : ℕ) (hi : i < n) (rf : Raft C) (args : RequestVoteArgs)
    (he : election (c.servers i) = .ok (rf, args)) :
    Follows n c (.election i) a { withServer c i rf with
      elections := c.elections ++ [newElection n i (c.epoch i) args] } := by
  obtain ⟨hs,hp,hterm,hid,hlast,hlt⟩ := election_section h.sound (h.peer i) args he
  have hst : Steps (majorities n) i a (stood a i) := .single (.stand a)
  have hsim := sim_server h i hst hs rf hp
  have hcand : (stood a i).cand args.term i = some (a.log i) := by
    simp [stood, hterm, set2_same]
  have hvote : (stood a i).vote i args.term = some i := by
    simp [stood, hterm, set2_same]
  refine ⟨i,stood a i,hst,{ hsim with elections := fun e hm => ?_ },rfl⟩
  rcases List.mem_append.mp hm with hm | hm
  · exact hsim.elections e hm
  · rw [List.mem_singleton.mp hm]
    exact
      { me := hi
        candidate := hid
        stood := ⟨a.log i,hcand,hlast,hlt⟩
        granted := fun j r hr => by
          simp only [newElection] at hr
          split_ifs at hr
        counted := ⟨{i},by simpa using hi,rfl,fun j hj => by
          rw [Finset.mem_singleton.mp hj]
          exact ⟨hvote,by simp [newElection]⟩⟩
        elected := fun hel => by simp [newElection] at hel }

theorem follows_request_vote (k j : ℕ) (e : Election) (rf : Raft C) (reply : RequestVoteReply)
    (hk : c.elections[k]? = some e) (hj : j < n)
    (he : requestVote (c.servers j) e.args = .ok (rf, reply)) :
    Follows n c (.requestVote k j) a (withElection (withServer c j rf) k
      (withCall e j { e.calls j with reply := some reply })) := by
  have hrel := h.elections e (List.mem_of_getElem? hk)
  obtain ⟨l,hl,hlast,hlt⟩ := hrel.stood
  obtain ⟨a',hst,hs,hp,hhol,hv⟩ := request_vote_section h.sound (h.peer j) e.args e.me l hl
    hrel.candidate hlast hlt reply he
  have hrel' := election_grows (steps_inv h.sound.inv hst).2.1 e hrel
  exact ⟨j,a',hst,
    sim_election (sim_server h j hst hs rf hp) k _ (call_reply e hrel' j hj reply hv),hhol⟩

/-- A reply's term is the only part of it that changes the peer itself. -/
theorem raised_server (i t : ℕ) : Steps (majorities n) i a (raisedTo a i t) ∧
    Sim n (withServer c i (handleHigherTerm (c.servers i) t)) (raisedTo a i t) ∧
    (raisedTo a i t).hollow = a.hollow := by
  have hst := raised_to_steps (majorities n) a i t
  exact ⟨hst,sim_server h i hst (raised_to_sound h.sound t) _ (higher_term h.sound (h.peer i) t),
    (raised_to_same a i t).2.2.2.2.2.2.2⟩

theorem follows_vote_reply (k j : ℕ) (e : Election) (reply : RequestVoteReply)
    (hk : c.elections[k]? = some e) (hs : (e.calls j).stage = .waiting) :
    Follows n c (.requestVoteReply k j) a
      (withElection (withServer c e.me (handleHigherTerm (c.servers e.me) reply.term)) k
        (withCall e j { e.calls j with stage := .answered })) := by
  obtain ⟨hst,hsim,hhol⟩ := raised_server h e.me reply.term
  have hrel := election_grows (steps_inv h.sound.inv hst).2.1 e
    (h.elections e (List.mem_of_getElem? hk))
  exact ⟨e.me,_,hst,sim_election hsim k _ (call_stage e hrel j .answered (by simp [hs])),hhol⟩

theorem follows_conclude (k : ℕ) (e : Election) (elected : Bool) (rf : Raft C)
    (hk : c.elections[k]? = some e) (hel : e.elected = some elected)
    (he : concludeElection (c.servers e.me) e.args.term elected = .ok rf) :
    Follows n c (.concludeElection k) a
      (withElection (withServer c e.me rf) k { e with concluded := true }) := by
  have hrel := h.elections e (List.mem_of_getElem? hk)
  have hpeer := h.peer e.me
  rw [concludeElection] at he
  split_ifs at he with hwin
  · obtain ⟨hcand,hterm,rfl⟩ := hwin
    obtain ⟨v,h1,h2,h3⟩ := hrel.counted
    rw [hpeer.term] at hterm
    obtain ⟨a',hst,hs,hp,hhol⟩ := become_leader_section h.sound hpeer hcand v h1
      (h2 ▸ hrel.elected hel) (fun j hj => hterm ▸ (h3 j hj).1) he
    have hrel' := election_grows (steps_inv h.sound.inv hst).2.1 e hrel
    exact ⟨e.me,a',hst,sim_election (sim_server h e.me hst hs rf hp) k _ { hrel' with },hhol⟩
  · obtain rfl := Except.ok.inj he
    rw [with_same]
    exact ⟨e.me,a,.refl,sim_election h k _ { hrel with },rfl⟩

theorem follows_append_missing (i term server : ℕ) (request : Option (Request C))
    (hs : server < n) (hne : server ≠ i)
    (he : appendMissingEntries (c.servers i) term server = .ok request) :
    Follows n c (.appendMissingEntries i term server) a (send c i server request) := by
  refine ⟨i,a,.refl,?_,rfl⟩
  cases request with
  | none => exact h
  | some request =>
    have hreq := append_missing_section h.sound (h.peer i) term server (c.epoch i) hs hne request he
    cases request with
    | appendEntries args =>
      refine { h with appends := fun r hr => ?_ }
      rcases List.mem_append.mp hr with hr | hr
      · exact h.appends r hr
      · rw [List.mem_singleton.mp hr]
        exact hreq
    | installSnapshot args =>
      refine { h with snapshots := fun r hr => ?_ }
      rcases List.mem_append.mp hr with hr | hr
      · exact h.snapshots r hr
      · rw [List.mem_singleton.mp hr]
        exact hreq

theorem follows_append_entries (k : ℕ) (r : Call (AppendEntriesArgs C) AppendEntriesReply)
    (rf : Raft C) (reply : AppendEntriesReply) (hk : c.appendCalls[k]? = some r)
    (he : appendEntries (c.servers r.callee) r.args = .ok (rf, reply)) :
    Follows n c (.appendEntries k) a { withServer c r.callee rf with
      appendCalls := c.appendCalls.set k { r with reply := some reply } } := by
  obtain ⟨p,hrel⟩ := h.appends r (List.mem_of_getElem? hk)
  obtain ⟨a',hst,hs,hp,hge,hrt,hack⟩ := append_entries_section h.sound (h.peer r.callee) r p hrel
    rfl reply he
  have hsim := sim_server h r.callee hst hs rf hp
  have hrel' := append_grows (steps_inv h.sound.inv hst).2.1 r p hrel
  refine ⟨r.callee,a',hst,{ hsim with appends := fun x hx => ?_ },?_⟩
  · rcases List.mem_or_eq_of_mem_set hx with hx | rfl
    · exact hsim.appends x hx
    · refine ⟨p,{ hrel' with replied := fun y hy => ?_ }⟩
      obtain rfl := Option.some.inj hy
      refine ⟨hge,le_of_eq hrt,fun hsucc ht => ?_⟩
      rcases hack with ⟨-,-,hhol⟩ | ⟨-,hack⟩
      · simp only [claimed, hhol, set2_same]
        omega
      · exact (hack hsucc ht).trans (le_max_left _ _)
  · intro r2 p2 rf2 reply2 hk2 hrel2 he2
    obtain rfl : r = r2 := Option.some.inj (hk.symm.trans hk2)
    obtain rfl : p = p2 := by
      have h1 := hrel.prev
      have h2 := hrel2.prev
      omega
    rw [he, Except.ok.injEq, Prod.mk.injEq] at he2
    obtain ⟨rfl,rfl⟩ := he2
    exact hack.imp_right (fun hk => ⟨hk.1,fun hsucc ht => ⟨hrt ▸ ht,hk.2 hsucc ht⟩⟩)

theorem follows_append_reply (k : ℕ) (r : Call (AppendEntriesArgs C) AppendEntriesReply)
    (rf : Raft C) (reply : AppendEntriesReply) (hk : c.appendCalls[k]? = some r)
    (hy : r.reply = some reply)
    (he : handleAppendReply (c.servers r.caller) r.callee r.args reply = .ok rf) :
    Follows n c (.handleAppendReply k) a { withServer c r.caller rf with
      appendCalls := c.appendCalls.set k { r with returned := true } } := by
  obtain ⟨p,hrel⟩ := h.appends r (List.mem_of_getElem? hk)
  have hp := append_reply_section h.sound (h.peer r.caller) r p hrel reply hy he
  have hst := raised_to_steps (majorities n) a r.caller reply.term
  have hsim := sim_server h r.caller hst (raised_to_sound h.sound _) rf hp
  have hrel' := append_grows (steps_inv h.sound.inv hst).2.1 r p hrel
  refine ⟨r.caller,_,hst,{ hsim with appends := fun x hx => ?_ },
    (raised_to_same a r.caller _).2.2.2.2.2.2.2⟩
  rcases List.mem_or_eq_of_mem_set hx with hx | rfl
  · exact hsim.appends x hx
  · exact ⟨p,{ hrel' with }⟩

theorem follows_install_snapshot (k : ℕ) (r : Call InstallSnapshotArgs InstallSnapshotReply)
    (rf : Raft C) (reply : InstallSnapshotReply) (hk : c.snapshotCalls[k]? = some r)
    (he : installSnapshot (c.servers r.callee) r.args = .ok (rf, reply)) :
    Follows n c (.installSnapshot k) a { withServer c r.callee rf with
      snapshotCalls := c.snapshotCalls.set k { r with reply := some reply } } := by
  obtain ⟨p,hrel⟩ := h.snapshots r (List.mem_of_getElem? hk)
  obtain ⟨a',hst,hs,hp,hhol,hack⟩ := install_snapshot_section h.sound (h.peer r.callee) r p hrel
    rfl reply he
  have hsim := sim_server h r.callee hst hs rf hp
  have hrel' := snapshot_grows (steps_inv h.sound.inv hst).2.1 r p hrel
  refine ⟨r.callee,a',hst,{ hsim with snapshots := fun x hx => ?_ },hhol,?_⟩
  · rcases List.mem_or_eq_of_mem_set hx with hx | rfl
    · exact hsim.snapshots x hx
    · exact ⟨p,{ hrel' with }⟩
  · intro r2 p2 rf2 reply2 hk2 hrel2 he2
    obtain rfl : r = r2 := Option.some.inj (hk.symm.trans hk2)
    obtain rfl : p = p2 := by
      have h1 := hrel.last
      have h2 := hrel2.last
      omega
    rw [he, Except.ok.injEq, Prod.mk.injEq] at he2
    obtain ⟨rfl,rfl⟩ := he2
    exact hack

theorem follows_snapshot_reply (k : ℕ) (r : Call InstallSnapshotArgs InstallSnapshotReply)
    (reply : InstallSnapshotReply) (hk : c.snapshotCalls[k]? = some r) :
    Follows n c (.installSnapshotReply k) a
      { withServer c r.caller (handleHigherTerm (c.servers r.caller) reply.term) with
        snapshotCalls := c.snapshotCalls.set k { r with returned := true } } := by
  obtain ⟨p,hrel⟩ := h.snapshots r (List.mem_of_getElem? hk)
  obtain ⟨hst,hsim,hhol⟩ := raised_server h r.caller reply.term
  have hrel' := snapshot_grows (steps_inv h.sound.inv hst).2.1 r p hrel
  refine ⟨r.caller,_,hst,{ hsim with snapshots := fun x hx => ?_ },hhol⟩
  rcases List.mem_or_eq_of_mem_set hx with hx | rfl
  · exact hsim.snapshots x hx
  · exact ⟨p,{ hrel' with }⟩

/-- A call of `Start` on a leader extends the log of its term by one entry,
so that its index differs from every index handed out before in that term. -/
theorem follows_start (i : ℕ) (command : Option C) (rf : Raft C) (index : ℤ) (term : ℕ)
    (isLeader : Bool) (he : start (c.servers i) command = .ok (rf, index, term, isLeader)) :
    Follows n c (.start i command) a { withServer c i rf with
      started := c.started ++ [⟨i, command, index, term, isLeader⟩] } := by
  obtain ⟨hlead,hsame,-⟩ := start_outcome command index term isLeader he
  by_cases hl : (c.servers i).state = .leader
  · obtain ⟨a',hst,hs,hp,hhol,-,hidx,happ⟩ := start_section h.sound (h.peer i) hl command index term
      isLeader he
    have hsim := sim_server h i hst hs rf hp
    refine ⟨i,a',hst,{ hsim with started := fun s hs => ?_, distinct := ?_ },hhol⟩
    · rcases List.mem_append.mp hs with hs | hs
      · exact hsim.started s hs
      · rw [List.mem_singleton.mp hs]
        exact fun _ => ⟨(a.lead term).length,hidx,by simp [happ]⟩
    · refine List.pairwise_append.mpr ⟨h.distinct,List.pairwise_singleton _ _,fun s hs s' hs' => ?_⟩
      rw [List.mem_singleton.mp hs']
      intro hsl _ hterm heq
      obtain ⟨p,hp,hentry⟩ := h.started s hs hsl
      simp only at hterm heq
      rw [hterm] at hentry
      have hlt := (List.getElem?_eq_some_iff.mp hentry).1
      omega
  · rw [hsame hl, with_same]
    have hf : isLeader = false := by simpa [hl] using hlead
    refine ⟨i,a,.refl,{ h with started := fun s hs => ?_, distinct := ?_ },rfl⟩
    · rcases List.mem_append.mp hs with hs | hs
      · exact h.started s hs
      · rw [List.mem_singleton.mp hs]
        exact fun hc => absurd hc (by simp [hf])
    · refine List.pairwise_append.mpr ⟨h.distinct,List.pairwise_singleton _ _,fun s hs s' hs' => ?_⟩
      rw [List.mem_singleton.mp hs']
      exact fun _ hc => absurd hc (by simp [hf])

theorem follows_local (e : Event C) (i : ℕ) (rf : Raft C) (hp : Peer n a i rf)
    (he : Effect n c a a e) : Follows n c e a (withServer c i rf) :=
  ⟨i,a,.refl,sim_server h i .refl h.sound rf hp,he⟩

end

/-- One event of the cluster is matched by steps of one server. -/
theorem sim_step (h : Sim n c a) (e : Event C) (hr : Runs n c e c') : Follows n c e a c' := by
  cases hr with
  | election i rf args hi hs he => exact follows_election h i hi rf args he
  | requestVote k j e rf reply hk hj hr he => exact follows_request_vote h k j e rf reply hk hj he
  | requestVoteReply k j e reply hk hr hs => exact follows_vote_reply h k j e reply hk hs
  | requestVoteFailed k j e hk hs =>
    have hrel := call_stage e (h.elections e (List.mem_of_getElem? hk)) j .finished (by simp [hs])
    exact ⟨e.me,a,.refl,sim_election h k _ { hrel with },rfl⟩
  | countVote k j e reply hk hr hs =>
    have hrel := call_counted e (h.elections e (List.mem_of_getElem? hk)) j reply hr (by simp [hs])
    exact ⟨e.me,a,.refl,sim_election h k _ hrel,rfl⟩
  | gatherVotes k e hk =>
    have hrel := h.elections e (List.mem_of_getElem? hk)
    refine ⟨e.me,a,.refl,sim_election h k _ { hrel with elected := fun hel => ?_ },rfl⟩
    simpa [majority, (h.peer e.me).peers] using hel
  | concludeElection k e elected rf hk hel he => exact follows_conclude h k e elected rf hk hel he
  | appendMissingEntries i term server request hi hs hne he =>
    exact follows_append_missing h i term server request hs hne he
  | appendEntries k r rf reply hk hn he => exact follows_append_entries h k r rf reply hk he
  | handleAppendReply k r rf reply hk hy he => exact follows_append_reply h k r rf reply hk hy he
  | installSnapshot k r rf reply hk he => exact follows_install_snapshot h k r rf reply hk he
  | installSnapshotReply k r reply hk hy => exact follows_snapshot_reply h k r reply hk
  | start i command rf index term isLeader hi he =>
    exact follows_start h i command rf index term isLeader he
  | advanceCommitIndex i rf hi he =>
    exact follows_local h _ i rf (advance_commit_section (h.peer i) he) rfl
  | apply i rf msg hi hs he =>
    obtain ⟨j,a',hst,hsim,heff⟩ :=
      follows_local h (.apply i) i rf (apply_section (h.peer i) msg he) rfl
    exact ⟨j,a',hst,{ hsim with },heff⟩
  | snapshot i index bytes rf hi he =>
    exact follows_local h _ i rf (snapshot_section h.sound (h.peer i) index bytes he) rfl
  | crash i hi =>
    obtain ⟨j,a',hst,hsim,heff⟩ := follows_local h (.crash i) i _ (crash_section (h.peer i)) rfl
    exact ⟨j,a',hst,{ hsim with },heff⟩

/-- A relation that every event under the condition carries over to the
history that follows it. -/
def Carried (n : ℕ) (P : Cluster C → Event C → Prop) (R : Cluster C → Past C → Prop) : Prop :=
  ∀ c e c' i a a', Sim n c a → R c a → P c e → Runs n c e c' → Steps (majorities n) i a a' →
    Sim n c' a' → Effect n c a a' e → R c' a'

theorem carried_true (n : ℕ) : Carried (C := C) n (fun _ _ => True) (fun _ _ => True) :=
  fun _ _ _ _ _ _ _ _ _ _ _ _ _ => trivial

/-- A whole run of the cluster is a run of the protocol, and keeps what every
event carries over. -/
theorem sim_run (P : Cluster C → Event C → Prop) (R : Cluster C → Past C → Prop)
    (hR : Carried n P R) (es : List (Event C)) (h : Sim n c a) (hr : R c a)
    (hm : Meets (step n) P c es) (he : exec n c es = some c') :
    ∃ a', Grows a a' ∧ Sim n c' a' ∧ R c' a' := by
  have hstep : ∀ (s : Cluster C) (e : Event C) (s' : Cluster C) (b : Past C),
      Sim n s b ∧ R s b → P s e → step n s e = some s' →
      ∃ b', Relation.ReflTransGen Grows b b' ∧ Sim n s' b' ∧ R s' b' := by
    intro s e s' b ⟨hs,hb⟩ hp hse
    have hruns := step_runs n s s' e hse
    obtain ⟨i,b',hst,hsim,heff⟩ := sim_step hs e hruns
    exact ⟨b',.single (steps_inv hs.sound.inv hst).2.1,hsim,
      hR s e s' i b b' hs hb hp hruns hst hsim heff⟩
  obtain ⟨a',hg,hsim⟩ := exec_simulation (step n) P Grows (fun s b => Sim n s b ∧ R s b) hstep es c
    c' a ⟨h,hr⟩ hm he
  have htrans : IsTrans (Past C) Grows := ⟨fun _ _ _ => grows_trans⟩
  have hrefl : Std.Refl (Grows (ι := ℕ) (E := LogEntry C)) := ⟨grows_refl⟩
  exact ⟨a',by rwa [Relation.reflTransGen_eq_self] at hg,hsim⟩

end Mitdist.RaftSimulation
