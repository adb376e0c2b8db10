import Mitdist.CommitSafety
import Mitdist.LogRepresentation
import Mitdist.Progress
import Mathlib.Data.Finset.Max
import Mathlib.Data.Prod.Lex

/-!
# A majority that talks elects a leader

Only the servers of a set take steps and exchange messages, none of them
crashes or discards anything, and only leaders poll. If the set is a majority
whose servers have kept their whole logs, it always has a leader of the latest
term among them or can elect one: a server of the latest term stands, which
ends the leadership of the server with the most up to date log if there is
one, and that server then stands in a later term and is granted all votes.
-/

set_option autoImplicit false

namespace Mitdist.MajorityElects
open Mitdist.RaftPeer Mitdist.RaftHandlers Mitdist.RaftWindow Mitdist.RaftCluster
open Mitdist.RaftOutcomes Mitdist.RaftIndices Mitdist.RaftInstance Mitdist.RaftEvents
open Mitdist.RaftServers Mitdist.RaftReads Mitdist.StampedLog
open Mitdist.LeaderProtocol Mitdist.RaftRelation Mitdist.RaftSections Mitdist.RaftSimulation
open Mitdist.MatchIndex Mitdist.CommitSafety Mitdist.LogRepresentation Mitdist.TransitionSystem
open Mitdist.Progress

variable {C : Type} {n : ℕ} {M : Finset ℕ} {c c' : Cluster C} {a a' : Past C}

/-- A step of the servers in the set, with messages among them only. -/
def Within (M : Finset ℕ) (c : Cluster C) : Event C → Prop
  | .election i | .start i _ | .apply i => i ∈ M
  | .advanceCommitIndex i => i ∈ M ∧ (c.servers i).state = .leader
  | .requestVote k j | .requestVoteReply k j | .countVote k j =>
    j ∈ M ∧ ∀ e ∈ c.elections[k]?, e.me ∈ M
  | .gatherVotes k | .concludeElection k => ∀ e ∈ c.elections[k]?, e.me ∈ M
  | .appendMissingEntries i _ server => i ∈ M ∧ server ∈ M
  | .appendEntries k | .handleAppendReply k =>
    ∀ r ∈ c.appendCalls[k]?, r.caller ∈ M ∧ r.callee ∈ M
  | .requestVoteFailed _ _ | .installSnapshot _ | .installSnapshotReply _ | .snapshot _ _ _
  | .crash _ => False

/-- Such a step that neither submits nor applies a command. -/
def Talks (M : Finset ℕ) (c : Cluster C) (e : Event C) : Prop :=
  Within M c e ∧ (∀ i command, e ≠ .start i command) ∧ ∀ i, e ≠ .apply i

/-- What an instance has applied lies below what it has committed. -/
def Trails (rf : Raft C) : Prop := -1 ≤ rf.lastApplied ∧ rf.lastApplied ≤ rf.commitIndex

theorem trails_section {rf rf' : Raft C} (ho : Ordered rf)
    (hp : readPersist rf.persister.raftstate = saved rf) (hincl : -1 ≤ rf.lastIncludedIndex)
    (hcommitted : rf.lastIncludedIndex ≤ rf.commitIndex)
    (hkeep : rf.commitIndex ≤ lastLogIndex rf') (h : Trails rf)
    (s : Section C) (m : Option (ApplyMsg C)) (hr : Ran rf s rf' m) : Trails rf' := by
  obtain ⟨hlow,h⟩ := h
  by_cases ha : s = .apply
  · subst ha
    cases hr with
    | apply _ msg hlt he =>
      rcases apply_outcome msg he with ⟨-,rfl,-⟩ | ⟨-,rfl,-⟩
      · exact ⟨hincl,hcommitted⟩
      · exact ⟨hlow.trans (Int.le_add_one le_rfl),hlt⟩
  by_cases hc : s = .crash
  · subst hc
    cases hr with
    | crash => exact ⟨by simpa [make, hp, saved] using hincl,le_rfl⟩
  obtain ⟨-,happ,-⟩ := moved_section ho s m hr ha hc
  rw [Trails, happ]
  refine ⟨hlow,?_⟩
  rcases commit_section ho hp s m hr with hsame | ⟨args,reply,-,he,-⟩ | ⟨args,reply,-,-,-,hmax⟩ |
    ⟨-,-,hlt⟩ | ⟨hcrash,-⟩
  · omega
  · rcases append_entries_indices args reply he with hq | ⟨-,-,-,-,hlt,hq⟩
    · rw [hq.commitIndex]
      exact h
    · rw [hq.commitIndex]
      simp only
      omega
  · omega
  · omega
  · exact absurd hcrash hc

/-- The servers of the set have kept their whole logs, and the cluster is in a
state that a guarded run reaches. -/
structure Sane (n : ℕ) (M : Finset ℕ) (c : Cluster C) (a : Past C) : Prop where
  sim : Sim n c a
  commits : Commits n c a
  bounded : Bounded c a
  trails : ∀ i, Trails (c.servers i)
  whole : ∀ j ∈ M, (c.servers j).lastIncludedIndex = -1

theorem trails_carried : Carried (C := C) n (fun c e => PollsOnly c e ∧ Covers c e)
    (fun c a => Commits n c a ∧ Bounded c a ∧ ∀ i, Trails (c.servers i)) := by
  intro c e c' i a a' hs ⟨hcom,hb,htr⟩ hok hruns hst hs' heff
  refine ⟨commits_carried c e c' i a a' hs hcom hok hruns hst hs' heff,
    bounded_carried c e c' i a a' hs hb trivial hruns hst hs' heff,fun j => ?_⟩
  rcases runs_server hs e hruns j with hsame | ⟨s,m,hsec,hran⟩
  · rw [hsame]
    exact htr j
  · obtain ⟨k,hk,hlen,-⟩ := commit_keep hs.sound i hst j _ (hcom.peer j)
    obtain ⟨b,w⟩ := (hs'.peer j).window
    have hlast := last_log_index w
    obtain ⟨b0,w0⟩ := (hs.peer j).window
    have hincl := w0.included
    exact trails_section (peer_ordered hs j) (hs.peer j).persisted (by omega)
      (hs.peer j).committed (by omega) (htr j) s m hran

/-- A step within the set is guarded: leaders poll, and no request is below
what a server of the set has discarded. -/
theorem within_guarded (hs : Sane n M c a) (e : Event C) (hw : Within M c e) :
    PollsOnly c e ∧ Covers c e := by
  cases e with
  | advanceCommitIndex i => exact ⟨Or.inl hw.2,trivial⟩
  | appendEntries k =>
    refine ⟨trivial,fun r hr hskip => ?_⟩
    obtain ⟨p,hrel⟩ := hs.sim.appends r (List.mem_of_getElem? hr)
    have hlow := hskip.2
    rw [hs.whole r.callee (hw r hr).2, hrel.prev] at hlow
    omega
  | _ => exact ⟨trivial,trivial⟩

theorem sane_step (hs : Sane n M c a) (e : Event C) (hw : Within M c e)
    (h : step n c e = some c') : ∃ a', Sane n M c' a' := by
  have hruns := step_runs n c c' e h
  obtain ⟨i,a',hst,hs',heff⟩ := sim_step hs.sim e hruns
  obtain ⟨hcom,hb,htr⟩ := trails_carried c e c' i a a' hs.sim ⟨hs.commits,hs.bounded,hs.trails⟩
    (within_guarded hs e hw) hruns hst hs' heff
  refine ⟨a',hs',hcom,hb,htr,fun j hj => ?_⟩
  rcases runs_server hs.sim e hruns j with hsame | ⟨s,m,hsec,hran⟩
  · rw [hsame]
    exact hs.whole j hj
  · rcases included_section (peer_ordered hs.sim j) (hs.sim.peer j).persisted s m hran with
      hsame | ⟨-,⟨index,bytes,rfl⟩ | ⟨args,rfl,-⟩⟩
    · rw [hsame]
      exact hs.whole j hj
    · obtain rfl := snapshot_origin e j index bytes hsec
      exact hw.elim
    · obtain ⟨k,r,rfl,-⟩ := install_origin e j args hsec
      exact hw.elim

theorem sane_leads (hs : Sane n M c a) (h : Leads (step n) (Within M) c c') :
    ∃ a', Sane n M c' a' :=
  leads_keeps (fun d => ∃ b, Sane n M d b)
    (fun _ e _ hd hw hstep => sane_step hd.choose_spec e hw hstep) ⟨a,hs⟩ h

theorem talks_within (h : Leads (step n) (Talks M) c c') : Leads (step n) (Within M) c c' :=
  leads_mono (fun _ _ ht => ht.1) h

/-- Talking leaves the records of what was submitted and applied alone. -/
theorem talks_keeps (hs : Sane n M c a) (h : Leads (step n) (Talks M) c c') :
    c'.started = c.started ∧ c'.applied = c.applied ∧
      ∀ j, (c'.servers j).lastApplied = (c.servers j).lastApplied := by
  refine (leads_keeps (fun d => (∃ b, Sane n M d b) ∧ d.started = c.started ∧
    d.applied = c.applied ∧ ∀ j, (d.servers j).lastApplied = (c.servers j).lastApplied) ?_
    ⟨⟨a,hs⟩,rfl,rfl,fun _ => rfl⟩ h).2
  intro d e d' ⟨⟨b,hb⟩,hstarted,happlied,hlast⟩ ⟨hw,hstart,happly⟩ hstep
  have hruns := step_runs n d d' e hstep
  refine ⟨sane_step hb e hw hstep,?_,?_,fun j => ?_⟩
  · rw [← hstarted]
    cases hruns with
    | start i command rf index term isLeader hi he => exact absurd rfl (hstart i command)
    | appendMissingEntries i term server request hi hsv hne he =>
      rcases request with - | - | - <;> rfl
    | _ => rfl
  · rw [← happlied]
    cases hruns with
    | apply i rf msg hi hlt he => exact absurd rfl (happly i)
    | appendMissingEntries i term server request hi hsv hne he =>
      rcases request with - | - | - <;> rfl
    | _ => rfl
  · rw [← hlast j]
    rcases runs_server hb.sim e hruns j with hsame | ⟨s,m,hsec,hran⟩
    · rw [hsame]
    · refine (moved_section (peer_ordered hb.sim j) s m hran ?_ ?_).2.1
      · rintro rfl
        exact happly j (apply_origin e j hsec)
      · rintro rfl
        obtain rfl := crash_origin e j hsec
        exact hw

theorem whole_log (hs : Sane n M c a) (j : ℕ) (hj : j ∈ M) : (c.servers j).log = a.log j := by
  obtain ⟨b,w⟩ := (hs.sim.peer j).window
  exact whole_retained w (hs.whole j hj)

/-- A server of the set shows its whole log. -/
theorem whole_window (hs : Sane n M c a) (j : ℕ) (hj : j ∈ M) :
    Window (c.servers j).log 0 (c.servers j) := by
  obtain ⟨b,w⟩ := (hs.sim.peer j).window
  rw [whole_log hs j hj]
  exact whole_base w (hs.whole j hj)

/-- What a candidate asks for. -/
def candidacy (rf : Raft C) : RequestVoteArgs where
  term := rf.currentTerm + 1
  candidateId := rf.me
  lastLogIndex := lastLogIndex rf
  lastLogTerm := lastStamp rf.log

def stood (rf : Raft C) : Raft C :=
  { persist { rf with currentTerm := rf.currentTerm + 1, votedFor := some rf.me } with
    state := .candidate }

theorem election_stands (rf : Raft C) (w : Window rf.log 0 rf) :
    election rf = .ok (stood rf, candidacy rf) := by
  have w1 : Window rf.log 0
      (persist { rf with currentTerm := rf.currentTerm+1, votedFor := some rf.me }) :=
    window_of _ 0 w rfl rfl rfl rfl
  rw [election, last_log_term w1]
  rfl

theorem higher_term_fields (rf : Raft C) (t : ℕ) (hlt : rf.currentTerm < t) :
    (handleHigherTerm rf t).currentTerm = t ∧ (handleHigherTerm rf t).votedFor = none ∧
      (handleHigherTerm rf t).state = .follower ∧ (handleHigherTerm rf t).log = rf.log := by
  rw [handleHigherTerm, if_pos hlt]
  exact ⟨rfl,rfl,rfl,rfl⟩

/-- A request of a later term makes every server a follower of that term. -/
theorem vote_follows (rf rf' : Raft C) (args : RequestVoteArgs) (reply : RequestVoteReply)
    (hlt : rf.currentTerm < args.term) (h : requestVote rf args = .ok (rf', reply)) :
    rf'.currentTerm = args.term ∧ rf'.state = .follower ∧ rf'.log = rf.log := by
  obtain ⟨hterm,-,hstate,hlog⟩ := higher_term_fields rf args.term hlt
  rcases request_vote_outcome args reply h with rfl | rfl <;> exact ⟨hterm,hstate,hlog⟩

/-- A request of a later term from a candidate with an up to date log is
granted. -/
theorem vote_granted (rf : Raft C) (w : Window rf.log 0 rf) (args : RequestVoteArgs)
    (hlt : rf.currentTerm < args.term)
    (hup : lastStamp rf.log < args.lastLogTerm ∨
      lastStamp rf.log = args.lastLogTerm ∧ lastLogIndex rf ≤ args.lastLogIndex) :
    ∃ rf', requestVote rf args = .ok (rf', ⟨args.term,true⟩) := by
  have w1 : Window rf.log 0 (handleHigherTerm rf args.term) := by
    rw [handleHigherTerm, if_pos hlt]
    exact window_of _ 0 w rfl rfl rfl rfl
  obtain ⟨hterm,hvoted,-,-⟩ := higher_term_fields rf args.term hlt
  rw [last_log_index w] at hup
  rw [requestVote]
  generalize handleHigherTerm rf args.term = rf1 at w1 hterm hvoted ⊢
  have hnew : args.lastLogTerm > lastStamp rf.log ∨
      args.lastLogTerm = lastStamp rf.log ∧ args.lastLogIndex ≥ (rf.log.length:ℤ)-1 := by
    rcases hup with h | h
    · exact Or.inl h
    · exact Or.inr ⟨h.1.symm,h.2⟩
  have hvote : vote rf1 args =
      .ok (persist { rf1 with votedFor := some args.candidateId }, true) := by
    rw [vote, if_pos (Or.inl hvoted), updatedLog, last_log_term w1, last_log_index w1]
    simp only [ok_bind, pure, Except.pure, decide_eq_true hnew, if_true]
  simp only
  rw [if_pos hterm.le, hvote, hterm]
  exact ⟨_,rfl⟩

/-- An election that its candidate is still gathering votes for. -/
structure Standing (c : Cluster C) (k i : ℕ) (e : Election) : Prop where
  get : c.elections[k]? = some e
  me : e.me = i
  epoch : e.epoch = c.epoch i
  elected : e.elected = none
  concluded : e.concluded = false
  candidate : (c.servers i).state = .candidate
  term : (c.servers i).currentTerm = e.args.term

theorem stands (hs : Sane n M c a) (i : ℕ) (hi : i ∈ M) (hn : i < n)
    (hl : (c.servers i).state ≠ .leader) :
    ∃ c', Leads (step n) (Talks M) c c' ∧ c'.servers = Function.update c.servers i
        (stood (c.servers i)) ∧
      Standing c' c.elections.length i (newElection n i (c.epoch i) (candidacy (c.servers i))) := by
  have hstep : step n c (.election i) = some { withServer c i (stood (c.servers i)) with
      elections := c.elections ++ [newElection n i (c.epoch i) (candidacy (c.servers i))] } := by
    rw [step, if_pos ⟨hn,hl⟩, election_stands _ (whole_window hs i hi)]
    rfl
  refine ⟨_,leads_one (.election i) ⟨hi,by simp,by simp⟩ hstep,rfl,?_⟩
  exact ⟨List.getElem?_concat_length ..,rfl,rfl,rfl,rfl,by simp [withServer, stood],
    by simp [withServer, stood, candidacy, newElection, persist]⟩

/-- The vote of a server is asked for, answered and counted. -/
def counted (e : Election) (j : ℕ) : Election :=
  { withCall e j ⟨some ⟨e.args.term,true⟩,.finished⟩ with
    count := e.count + 1
    finished := e.finished + 1 }

theorem asks (hM : M ⊆ Finset.range n) (k i j : ℕ) (e : Election) (h : Standing c k i e)
    (hi : i ∈ M) (hj : j ∈ M) (hne : j ≠ i) (hfresh : e.calls j = {}) (rf : Raft C)
    (hv : requestVote (c.servers j) e.args = .ok (rf, ⟨e.args.term,true⟩)) :
    Leads (step n) (Talks M) c (withElection (withServer c j rf) k (counted e j)) := by
  obtain ⟨hget,rfl,hepoch,-,-,-,hterm⟩ := h
  have hjn : j < n := Finset.mem_range.mp (hM hj)
  have hk : k < c.elections.length := (List.getElem?_eq_some_iff.mp hget).1
  have hme : ∀ (d : Cluster C) (x : Election), d.elections[k]? = some x → x.me = e.me →
      ∀ y ∈ d.elections[k]?, y.me ∈ M := by
    intro d x hx hxe y hy
    obtain rfl := Option.some.inj (hx.symm.trans hy)
    exact hxe ▸ hi
  have hask : step n c (.requestVote k j) = some (withElection (withServer c j rf) k
      (withCall e j ⟨some ⟨e.args.term,true⟩,.waiting⟩)) := by
    simp [step, hget, hjn, hne, hfresh, hv, Except.toOption]
  have hsame : handleHigherTerm (c.servers e.me) e.args.term = c.servers e.me := by
    rw [handleHigherTerm, if_neg (by omega)]
  have hother : Function.update c.servers j rf e.me = c.servers e.me :=
    Function.update_of_ne hne.symm _ _
  have hreply : step n (withElection (withServer c j rf) k
      (withCall e j ⟨some ⟨e.args.term,true⟩,.waiting⟩)) (.requestVoteReply k j) =
      some (withElection (withServer c j rf) k
        (withCall e j ⟨some ⟨e.args.term,true⟩,.answered⟩)) := by
    simp [step, withElection, withServer, withCall, hk, hepoch, hother, hsame]
  have hcount : step n (withElection (withServer c j rf) k
      (withCall e j ⟨some ⟨e.args.term,true⟩,.answered⟩)) (.countVote k j) =
      some (withElection (withServer c j rf) k (counted e j)) := by
    simp [step, withElection, withServer, withCall, counted, hk, hepoch]
  refine leads_cons (.requestVote k j) ⟨⟨hj,hme c e hget rfl⟩,by simp,by simp⟩ hask
    (leads_cons (.requestVoteReply k j) ⟨⟨hj,hme _ _ (List.getElem?_set_self hk) rfl⟩,by simp,
      by simp⟩ hreply
    (leads_one (.countVote k j) ⟨⟨hj,hme _ _ (List.getElem?_set_self hk) rfl⟩,by simp,by simp⟩
      hcount))

theorem standing_counted (k i j : ℕ) (e : Election) (h : Standing c k i e) (hne : j ≠ i)
    (rf : Raft C) :
    Standing (withElection (withServer c j rf) k (counted e j)) k i (counted e j) := by
  have hk : k < c.elections.length := (List.getElem?_eq_some_iff.mp h.get).1
  have hother : Function.update c.servers j rf i = c.servers i :=
    Function.update_of_ne hne.symm _ _
  exact ⟨List.getElem?_set_self hk,h.me,h.epoch,h.elected,h.concluded,
    (congrArg Raft.state hother).trans h.candidate,
    (congrArg Raft.currentTerm hother).trans h.term⟩

/-- All servers of a list grant their votes, one after the other. -/
theorem asks_all (hM : M ⊆ Finset.range n) (k i : ℕ) (hi : i ∈ M) (S : List ℕ) (c : Cluster C)
    (e : Election) (h : Standing c k i e) (hS : ∀ j ∈ S, j ∈ M ∧ j ≠ i) (hnd : S.Nodup)
    (hfresh : ∀ j ∈ S, e.calls j = {})
    (hlt : ∀ j ∈ S, (c.servers j).currentTerm < e.args.term)
    (hv : ∀ j ∈ S, ∃ rf, requestVote (c.servers j) e.args = .ok (rf, ⟨e.args.term,true⟩)) :
    ∃ c' e', Leads (step n) (Talks M) c c' ∧ Standing c' k i e' ∧
      e'.count = e.count + S.length ∧ e'.args = e.args ∧
      (∀ j ∈ S, (c'.servers j).currentTerm = e.args.term) ∧
      ∀ j ∉ S, c'.servers j = c.servers j := by
  induction S generalizing c e with
  | nil => exact ⟨c,e,leads_refl c,h,rfl,rfl,by simp,fun _ _ => rfl⟩
  | cons j S ih =>
    obtain ⟨hj,hne⟩ := hS j (by simp)
    obtain ⟨hjS,hnd⟩ := List.nodup_cons.mp hnd
    obtain ⟨rf,hvj⟩ := hv j (by simp)
    have hlead := asks hM k i j e h hi hj hne (hfresh j (by simp)) rf hvj
    have hterm := (vote_follows _ rf e.args _ (hlt j (by simp)) hvj).1
    have hrest : ∀ x ∈ S, Function.update c.servers j rf x = c.servers x := by
      intro x hx
      exact Function.update_of_ne (by rintro rfl; exact hjS hx) _ _
    obtain ⟨c',e',hl,hst,hcount,hargs,hasked,hothers⟩ := ih
      (withElection (withServer c j rf) k (counted e j)) (counted e j)
      (standing_counted k i j e h hne rf) (fun x hx => hS x (by simp [hx])) hnd
      (fun x hx => by
        have hxj : x ≠ j := fun hc => hjS (hc ▸ hx)
        simpa [counted, withCall, hxj] using hfresh x (by simp [hx]))
      (fun x hx => (congrArg Raft.currentTerm (hrest x hx)).trans_lt (hlt x (by simp [hx])))
      (fun x hx => by
        have := hv x (by simp [hx])
        rwa [← hrest x hx] at this)
    refine ⟨c',e',leads_trans hlead hl,hst,?_,hargs,fun x hx => ?_,fun x hx => ?_⟩
    · rw [hcount, List.length_cons]
      simp only [counted]
      omega
    · rcases List.mem_cons.mp hx with rfl | hx
      · rw [hothers x hjS]
        simpa [withElection, withServer] using hterm
      · exact hasked x hx
    · rw [List.mem_cons, not_or] at hx
      rw [hothers x hx.2]
      exact Function.update_of_ne hx.1 _ _

/-- A candidate with the votes of a majority becomes the leader. -/
theorem wins (hs : Sane n M c a) (k i : ℕ) (hi : i ∈ M) (hn : i < n) (e : Election)
    (h : Standing c k i e) (hmaj : n/2+1 ≤ e.count) :
    ∃ c' rf, Leads (step n) (Talks M) c c' ∧ c'.servers = Function.update c.servers i rf ∧
      rf.state = .leader ∧ rf.currentTerm = e.args.term := by
  obtain ⟨hget,rfl,hepoch,hel,hcon,hcand,hterm⟩ := h
  have hk : k < c.elections.length := (List.getElem?_eq_some_iff.mp hget).1
  have hpeer := hs.sim.peer e.me
  have hm : majority (c.servers e.me) = n/2+1 := by rw [majority, hpeer.peers]
  obtain ⟨rf,hrf⟩ : ∃ rf, becomeLeader (c.servers e.me) = .ok rf := by
    rw [becomeLeader, store,
      if_pos (by rw [List.length_map, hpeer.matchLength, hpeer.me]; exact hn)]
    exact ⟨_,rfl⟩
  obtain ⟨nextIndex,matchIndex,hrfeq⟩ := become_leader_outcome hrf
  have hgather : step n c (.gatherVotes k) =
      some (withElection c k { e with elected := some true }) := by
    simp [step, hget, hepoch, hel, hm, hmaj]
  have hconclude : step n (withElection c k { e with elected := some true })
      (.concludeElection k) = some (withElection (withServer c e.me rf) k
        { e with elected := some true, concluded := true }) := by
    simp [step, withElection, withServer, hk, hepoch, hcon, concludeElection, hcand, hterm, hrf,
      Except.toOption]
  refine ⟨_,rf,leads_cons (.gatherVotes k) ⟨?_,by simp,by simp⟩ hgather
    (leads_one (.concludeElection k) ⟨?_,by simp,by simp⟩ hconclude),rfl,by rw [hrfeq],?_⟩
  · intro d hd
    obtain rfl := Option.some.inj (hget.symm.trans hd)
    exact hi
  · intro d hd
    obtain rfl := Option.some.inj ((List.getElem?_set_self hk).symm.trans hd)
    exact hi
  · rw [hrfeq]
    exact hterm

/-- A leader of the set that is in the latest term of all its servers. -/
structure Led (M : Finset ℕ) (c : Cluster C) (L : ℕ) : Prop where
  mem : L ∈ M
  leads : (c.servers L).state = .leader
  latest : ∀ j ∈ M, (c.servers j).currentTerm ≤ (c.servers L).currentTerm

section
variable (hs : Sane n M c a) (hM : M ⊆ Finset.range n)
include hs hM

theorem elects (hmaj : n/2+1 ≤ M.card) (L : ℕ) (hL : L ∈ M) (hl : (c.servers L).state ≠ .leader)
    (hlatest : ∀ j ∈ M, (c.servers j).currentTerm ≤ (c.servers L).currentTerm)
    (hbest : ∀ j ∈ M, UpToDate (c.servers L).log (c.servers j).log) :
    ∃ c', Leads (step n) (Talks M) c c' ∧ Led M c' L := by
  have hLn : L < n := Finset.mem_range.mp (hM hL)
  obtain ⟨c1,hl1,hservers,hst1⟩ := stands hs L hL hLn hl
  have hother : ∀ j, j ≠ L → c1.servers j = c.servers j := fun j hj => by
    rw [hservers, Function.update_of_ne hj]
  have hmem : ∀ j ∈ (M.erase L).toList, j ∈ M ∧ j ≠ L := by
    intro j hj
    obtain ⟨h1,h2⟩ := Finset.mem_erase.mp (Finset.mem_toList.mp hj)
    exact ⟨h2,h1⟩
  obtain ⟨c2,e,hl2,hst2,hcount,hargs,hasked,hrest⟩ := asks_all hM c.elections.length L hL
    (M.erase L).toList c1 _ hst1 hmem (Finset.nodup_toList _)
    (fun j hj => by
      obtain ⟨hjM,hne⟩ := hmem j hj
      have hjn : j < n := Finset.mem_range.mp (hM hjM)
      simp [newElection, hjn, hne])
    (fun j hj => by
      rw [hother j (hmem j hj).2]
      exact Nat.lt_succ_of_le (hlatest j (hmem j hj).1))
    (fun j hj => by
      obtain ⟨hjM,hne⟩ := hmem j hj
      rw [hother j hne]
      refine vote_granted _ (whole_window hs j hjM) _ (Nat.lt_succ_of_le (hlatest j hjM)) ?_
      have hlast := last_log_index (whole_window hs L hL)
      have hlastj := last_log_index (whole_window hs j hjM)
      simp only [newElection, candidacy]
      rcases hbest j hjM with h | ⟨h,hlen⟩
      · exact Or.inl h
      · exact Or.inr ⟨h,by omega⟩)
  obtain ⟨a2,hs2⟩ := sane_leads hs (talks_within (leads_trans hl1 hl2))
  have hall : n/2+1 ≤ e.count := by
    rw [hcount, Finset.length_toList, Finset.card_erase_of_mem hL]
    simp only [newElection]
    omega
  obtain ⟨c3,rf,hl3,hservers3,hlead,hterm⟩ := wins hs2 _ L hL hLn e hst2 hall
  refine ⟨c3,leads_trans (leads_trans hl1 hl2) hl3,hL,by rw [hservers3]; simpa using hlead,?_⟩
  intro j hj
  rw [hservers3, Function.update_self]
  by_cases hjL : j = L
  · rw [hjL, Function.update_self]
  · rw [Function.update_of_ne hjL, hterm, hargs]
    exact (hasked j (Finset.mem_toList.mpr (Finset.mem_erase.mpr ⟨hjL,hj⟩))).le

/-- A server with a most up to date log follows another one that stands in a
later term than all servers of the set. -/
theorem steps_down (m L : ℕ) (hm : m ∈ M) (hL : L ∈ M) (hne : L ≠ m)
    (hl : (c.servers m).state ≠ .leader)
    (hlatest : ∀ j ∈ M, (c.servers j).currentTerm ≤ (c.servers m).currentTerm) :
    ∃ c', Leads (step n) (Talks M) c c' ∧ (c'.servers L).state ≠ .leader ∧
      (∀ j ∈ M, (c'.servers j).currentTerm ≤ (c'.servers L).currentTerm) ∧
      ∀ j, (c'.servers j).log = (c.servers j).log := by
  have hmn : m < n := Finset.mem_range.mp (hM hm)
  have hLn : L < n := Finset.mem_range.mp (hM hL)
  obtain ⟨c1,hl1,hservers,hst1⟩ := stands hs m hm hmn hl
  obtain ⟨a1,hs1⟩ := sane_leads hs (talks_within hl1)
  obtain ⟨⟨rf,reply⟩,hv⟩ := request_vote_reads hs1.sim.sound (hs1.sim.peer L)
    (candidacy (c.servers m))
  have hstep : step n c1 (.requestVote c.elections.length L) = some (withElection
      (withServer c1 L rf) c.elections.length (withCall
        (newElection n m (c.epoch m) (candidacy (c.servers m))) L ⟨some reply,.waiting⟩)) := by
    simp [step, hst1.get, hLn, hne, newElection, hv, Except.toOption]
  have hother : ∀ j, j ≠ m → c1.servers j = c.servers j := fun j hj => by
    rw [hservers, Function.update_of_ne hj]
  have hself : c1.servers m = stood (c.servers m) := by rw [hservers, Function.update_self]
  obtain ⟨hterm,hstate,hlog⟩ := vote_follows _ rf _ reply
    (by rw [hother L hne]; exact Nat.lt_succ_of_le (hlatest L hL)) hv
  refine ⟨_,leads_trans hl1 (leads_one (.requestVote c.elections.length L)
    ⟨⟨hL,fun d hd => ?_⟩,by simp,by simp⟩ hstep),?_,fun j hj => ?_,fun j => ?_⟩
  · obtain rfl := Option.some.inj (hst1.get.symm.trans hd)
    exact hm
  · simp [withElection, withServer, hstate]
  · simp only [withElection, withServer, Function.update_self]
    by_cases hjL : j = L
    · rw [hjL, Function.update_self]
    · rw [Function.update_of_ne hjL, hterm]
      by_cases hjm : j = m
      · rw [hjm, hself]
        exact le_rfl
      · rw [hother j hjm]
        exact (hlatest j hj).trans (Nat.le_succ _)
  · simp only [withElection, withServer]
    have hkept : (c1.servers j).log = (c.servers j).log := by
      by_cases hjm : j = m
      · rw [hjm, hself]
        rfl
      · rw [hother j hjm]
    by_cases hjL : j = L
    · rw [hjL, Function.update_self, hlog, ← hjL, hkept]
    · rw [Function.update_of_ne hjL, hkept]

/-- A majority of servers with whole logs has a leader or elects one. -/
theorem leader_elected (hmaj : n/2+1 ≤ M.card) :
    ∃ c' L, Leads (step n) (Talks M) c c' ∧ Led M c' L := by
  have hne : M.Nonempty := Finset.card_pos.mp (by omega)
  obtain ⟨m,hm,hlatest⟩ := M.exists_max_image (fun j => (c.servers j).currentTerm) hne
  by_cases hled : (c.servers m).state = .leader
  · exact ⟨c,m,leads_refl c,hm,hled,hlatest⟩
  obtain ⟨L,hL,hbest⟩ := M.exists_max_image
    (fun j => toLex (lastStamp (c.servers j).log, (c.servers j).log.length)) hne
  have hup : ∀ j ∈ M, UpToDate (c.servers L).log (c.servers j).log := fun j hj =>
    Prod.Lex.toLex_le_toLex.mp (hbest j hj)
  by_cases hLm : L = m
  · subst hLm
    obtain ⟨c',hl,hled'⟩ := elects hs hM hmaj L hL hled hlatest hup
    exact ⟨c',L,hl,hled'⟩
  · obtain ⟨c1,hl1,hstate,hlatest1,hlogs⟩ := steps_down hs hM m L hm hL hLm hled hlatest
    obtain ⟨a1,hs1⟩ := sane_leads hs (talks_within hl1)
    obtain ⟨c',hl,hled'⟩ := elects hs1 hM hmaj L hL hstate hlatest1
      (fun j hj => by rw [hlogs, hlogs]; exact hup j hj)
    exact ⟨c',L,leads_trans hl1 hl,hled'⟩

end

end Mitdist.MajorityElects
