import Mitdist.LogRepresentation
import Mitdist.LeaderAppendOnly

/-!
# A snapshot is sent again

A leader that has discarded what a follower misses sends its snapshot. The
reply to a snapshot tells the leader nothing but a term, so the leader's next
index for the follower stays where it was and the snapshot is sent again, in
every round of the term. Only the reply to a request for entries moves the
next index.
-/

set_option autoImplicit false

namespace Mitdist.SnapshotRounds
open Mitdist.RaftPeer Mitdist.RaftHandlers Mitdist.RaftCluster Mitdist.RaftOutcomes
open Mitdist.RaftInstance Mitdist.RaftEvents Mitdist.RaftIndices Mitdist.RaftReads
open Mitdist.LeaderProtocol Mitdist.RaftRelation Mitdist.RaftSimulation Mitdist.RaftServers
open Mitdist.LogRepresentation Mitdist.TransitionSystem
open Mitdist.LeaderAppendOnly (Leads)

variable {C : Type} {n L F T : ℕ} {c d : Cluster C} {a : Past C} {rf rf' : Raft C}

/-- The request, its handling and the handling of its reply. -/
def snapshotEvents (c : Cluster C) (L F : ℕ) : List (Event C) :=
  [.appendMissingEntries L (c.servers L).currentTerm F, .installSnapshot c.snapshotCalls.length,
    .installSnapshotReply c.snapshotCalls.length]

/-- A number of complete rounds of a snapshot. -/
def snapshotRounds (n L F : ℕ) : ℕ → Cluster C → Option (Cluster C)
  | 0, c => some c
  | k+1, c => do
    let c' ← exec n c (snapshotEvents c L F)
    snapshotRounds n L F k c'

theorem snapshot_sent_iff (args : InstallSnapshotArgs) :
    appendMissingEntries rf T F = .ok (some (.installSnapshot args)) ↔
      rf.state = .leader ∧ rf.currentTerm = T ∧
      (∃ v, rf.nextIndex[F]? = some v ∧ v - 1 < rf.lastIncludedIndex) ∧
      args = ⟨rf.currentTerm,rf.me,rf.lastIncludedIndex,rf.lastIncludedTerm,rf.snapshot⟩ := by
  rw [appendMissingEntries]
  split_ifs with hstop
  · simp only [Except.ok.injEq, reduceCtorEq, false_iff]
    rintro ⟨hl,ht,-⟩
    exact hstop.elim (fun h => h hl) (fun h => h ht)
  · push Not at hstop
    simp only [bind_ok, load_ok, Int.toNat_natCast]
    constructor
    · rintro ⟨v,⟨-,hv⟩,h⟩
      split_ifs at h with hlow
      · simp only [pure, Except.pure, Except.ok.injEq, Option.some.injEq,
          Request.installSnapshot.injEq] at h
        exact ⟨hstop.1,hstop.2,⟨v,hv,hlow⟩,h.symm⟩
      · simp only [bind_ok] at h
        obtain ⟨_,-,h⟩ := h
        simp [pure, Except.pure] at h
    · rintro ⟨-,-,⟨v,hv,hlow⟩,rfl⟩
      exact ⟨v,⟨by omega,hv⟩,by rw [if_pos hlow]; rfl⟩

theorem sent_term (args : InstallSnapshotArgs)
    (h : appendMissingEntries rf T F = .ok (some (.installSnapshot args))) : args.term = T := by
  obtain ⟨-,ht,-,rfl⟩ := (snapshot_sent_iff args).mp h
  exact ht

theorem same_term_kept (ht : rf.currentTerm = T) : handleHigherTerm rf T = rf :=
  if_neg (by omega)

/-- A round leaves the leader as it was. -/
theorem snapshot_round (hL : L < n) (hF : F < n) (hne : F ≠ L) (args : InstallSnapshotArgs)
    (follower : Raft C)
    (hsend : appendMissingEntries (c.servers L) T F = .ok (some (.installSnapshot args)))
    (hinstall : installSnapshot (c.servers F) args = .ok (follower, ⟨T⟩)) :
    ∃ d, exec n c (snapshotEvents c L F) = some d ∧ d.servers L = c.servers L ∧
      d.servers F = follower := by
  have hterm := ((snapshot_sent_iff args).mp hsend).2.1
  have hother : Function.update c.servers F follower L = c.servers L :=
    Function.update_of_ne hne.symm _ _
  have hkept := same_term_kept hterm
  refine ⟨{ withServer (withServer c F follower) L (c.servers L) with
    snapshotCalls := c.snapshotCalls ++ [⟨L,c.epoch L,F,args,some ⟨T⟩,true⟩] },?_,
    Function.update_self ..,(Function.update_of_ne hne _ _).trans (Function.update_self ..)⟩
  simp [snapshotEvents, RaftCluster.exec, TransitionSystem.exec, step, hterm, hL, hF, hne, hsend,
    send, hinstall, Except.toOption, withServer, hother, hkept]

/-- A server answers a snapshot with the term that it is left with. -/
theorem install_snapshot_term (args : InstallSnapshotArgs) (reply : InstallSnapshotReply)
    (h : installSnapshot rf args = .ok (rf', reply)) :
    reply.term = max rf.currentTerm args.term ∧ rf'.currentTerm = reply.term := by
  have hraised := higher_term_term rf args.term
  rw [installSnapshot] at h
  generalize handleHigherTerm rf args.term = rf1 at h hraised
  simp only at h
  split_ifs at h
  · obtain ⟨rfl,rfl⟩ := Prod.mk.inj (Except.ok.inj h)
    exact ⟨hraised,rfl⟩
  · simp only [bind_ok] at h
    obtain ⟨found,-,rf2,hrf2,h⟩ := h
    obtain ⟨rfl,rfl⟩ := Prod.mk.inj (Except.ok.inj h)
    refine ⟨hraised,?_⟩
    show rf2.currentTerm = rf1.currentTerm
    rw [rebase] at hrf2
    split_ifs at hrf2
    · obtain ⟨e,log,-,-,rfl⟩ := trim_outcome _ hrf2
      rfl
    · rw [← Except.ok.inj hrf2]

/-- A server that answers a snapshot with its term has discarded as much. -/
theorem answered_includes (ho : Ordered rf) (args : InstallSnapshotArgs)
    (reply : InstallSnapshotReply) (h : installSnapshot rf args = .ok (rf', reply))
    (ht : reply.term = args.term) : args.lastIncludedIndex ≤ rf'.lastIncludedIndex := by
  have hterm := (install_snapshot_term args reply h).1
  have hraised := higher_term_term rf args.term
  rcases install_snapshot_indices ho args reply h with ⟨hq,hold | hold⟩ | ⟨-,-,hincl,-⟩
  · omega
  · rw [hq.lastIncludedIndex]
    exact hold
  · exact hincl.ge

/-- The same snapshot a second time changes nothing. -/
theorem install_again (ho : Ordered rf) (args : InstallSnapshotArgs) (ht : args.term = T)
    (h : installSnapshot rf args = .ok (rf', ⟨T⟩)) :
    installSnapshot rf' args = .ok (rf', ⟨T⟩) := by
  have hincl := answered_includes ho args _ h ht.symm
  have hterm : rf'.currentTerm = T := (install_snapshot_term args _ h).2
  have hkept := same_term_kept hterm
  simp only [installSnapshot, ht, hkept]
  rw [if_pos (Or.inr hincl), hterm]

theorem snapshot_rounds (hL : L < n) (hF : F < n) (hne : F ≠ L) (args : InstallSnapshotArgs)
    (follower : Raft C) (hagain : installSnapshot follower args = .ok (follower, ⟨T⟩)) (k : ℕ)
    (c : Cluster C)
    (hsend : appendMissingEntries (c.servers L) T F = .ok (some (.installSnapshot args)))
    (hinstall : installSnapshot (c.servers F) args = .ok (follower, ⟨T⟩)) :
    ∃ d, snapshotRounds n L F (k+1) c = some d ∧ d.servers L = c.servers L ∧
      d.servers F = follower := by
  obtain ⟨u,hu,hleader,hfollower⟩ := snapshot_round hL hF hne args follower hsend hinstall
  induction k generalizing c u with
  | zero => exact ⟨u,by simp [snapshotRounds, hu],hleader,hfollower⟩
  | succ k ih =>
    have hsend' := hleader ▸ hsend
    have hinstall' : installSnapshot (u.servers F) args = .ok (follower, ⟨T⟩) := by
      rw [hfollower, hagain]
    obtain ⟨w,hw,hwL,hwF⟩ := snapshot_round hL hF hne args follower hsend' hinstall'
    obtain ⟨d,hd,hdL,hdF⟩ := ih u hsend' hinstall' w hw hwL hwF
    refine ⟨d,?_,hdL.trans hleader,hdF⟩
    rw [snapshotRounds, hu]
    exact hd

/-- The follower of a reachable state that accepts the leader's term handles
the snapshot and answers with that term. -/
theorem snapshot_answered (hL : L < n) (hF : F < n) (hne : F ≠ L) (es : List (Event C))
    (hes : exec n (RaftCluster.initial C n) es = some c) (args : InstallSnapshotArgs)
    (hsend : appendMissingEntries (c.servers L) T F = .ok (some (.installSnapshot args)))
    (haccept : (c.servers F).currentTerm ≤ T) :
    ∃ follower, installSnapshot (c.servers F) args = .ok (follower, ⟨T⟩) := by
  have hrun : exec n (RaftCluster.initial C n) (es ++ [.appendMissingEntries L T F]) =
      some (send c L F (some (.installSnapshot args))) := by
    rw [RaftCluster.exec, exec_append]
    refine Option.bind_eq_some_iff.mpr ⟨c,hes,?_⟩
    simp [TransitionSystem.exec, step, hL, hF, hne, hsend, Except.toOption]
  obtain ⟨a,hs,-⟩ := reachable_bounded _ hrun
  obtain ⟨p,hrel⟩ := hs.snapshots _ (List.mem_append_right _ (List.mem_singleton_self _))
  obtain ⟨⟨follower,reply⟩,he⟩ := install_snapshot_reads hs.sound (hs.peer F) _ p hrel
  have hreply : reply.term = T := by
    rw [(install_snapshot_term args reply he).1, sent_term args hsend]
    exact max_eq_right haccept
  refine ⟨follower,?_⟩
  rw [← hreply]
  exact he

/-- The event is not the handling of a reply of the follower to a request of
the leader for entries. -/
def AnswersOther (L F : ℕ) (c : Cluster C) : Event C → Prop
  | .handleAppendReply k => ∀ r ∈ c.appendCalls[k]?, r.caller = L → r.callee ≠ F
  | _ => True

instance decidableAnswersOther (L F : ℕ) (c : Cluster C) :
    ∀ e : Event C, Decidable (AnswersOther L F c e)
  | .handleAppendReply k =>
    inferInstanceAs (Decidable (∀ r ∈ c.appendCalls[k]?, r.caller = L → r.callee ≠ F))
  | .election _ | .requestVote _ _ | .requestVoteReply _ _ | .requestVoteFailed _ _
  | .countVote _ _ | .gatherVotes _ | .concludeElection _ | .appendMissingEntries _ _ _
  | .appendEntries _ | .installSnapshot _ | .installSnapshotReply _ | .start _ _
  | .advanceCommitIndex _ | .apply _ | .snapshot _ _ _ | .crash _ => .isTrue trivial

theorem next_section (s : Section C) (m : Option (ApplyMsg C)) (hr : Ran rf s rf' m)
    (hl : rf.state = .leader) (hl' : rf'.state = .leader)
    (hother : ∀ args reply, s ≠ .handleAppendReply F args reply) :
    rf'.nextIndex[F]? = rf.nextIndex[F]? := by
  rcases leads_section s m hr hl' with ⟨-,⟨hn,-⟩ | ⟨command,rfl⟩ | ⟨server,args,reply,rfl⟩⟩ | ⟨hc,-⟩
  · rw [hn]
  · cases hr with
    | start _ _ r he =>
      obtain ⟨index,term,isLeader⟩ := r
      obtain ⟨matchIndex,rfl⟩ := (start_outcome command index term isLeader he).2.2 hl
      rfl
  · have hserver : server ≠ F := fun he => hother args reply (by rw [he])
    cases hr with
    | handleAppendReply _ _ _ _ he =>
      rcases append_reply_outcome server args reply he with
        rfl | ⟨-,-,-,⟨-,-,rfl⟩ | ⟨-,next,rfl⟩⟩
      · rw [(higher_term_leader rf reply.term hl').1]
      · exact List.getElem?_set_ne hserver
      · exact List.getElem?_set_ne hserver
  · simp [hl] at hc

/-- What the leader knows of the follower, and what it has discarded since. -/
def Behind (L F T : ℕ) (next : Option ℤ) (included : ℤ) (c : Cluster C) (_ : Past C) : Prop :=
  included ≤ (c.servers L).lastIncludedIndex ∧
    (Leads c L T → (c.servers L).nextIndex[F]? = next)

theorem behind_carried (L F T : ℕ) (next : Option ℤ) (included : ℤ) :
    Carried (C := C) n (fun c e => Leads c L T ∧ AnswersOther L F c e)
      (Behind L F T next included) := by
  intro c e d i a a' hsim hbehind ⟨hlead,hother⟩ hruns hst hsim' heff
  constructor
  · exact hbehind.1.trans (included_monotone hsim e hruns L)
  · intro hlead'
    rw [← hbehind.2 hlead]
    rcases runs_server hsim e hruns L with hs | ⟨s,m,hsec,hran⟩
    · rw [hs]
    · refine next_section s m hran hlead.1 hlead'.1 (fun args reply he => ?_)
      subst he
      obtain ⟨k,r,rfl,hk,-,hcaller,hcallee,-⟩ := append_reply_origin e L F args reply hsec
      exact hother r hk hcaller hcallee

/-- A leader of a reachable state has discarded what a follower misses, and
the follower accepts its term. The follower handles the snapshot and answers
with the leader's term, and after any number of complete rounds the leader
sends the same snapshot again, and the follower is as the first one left it.
However the run goes on, as long as the server leads the term and handles no
reply of the follower to a request for entries, its next request to the
follower is a snapshot. -/
theorem never_fed_after_snapshot (n : ℕ) (es : List (Event C)) (c : Cluster C) (L F T : ℕ)
    (hL : L < n) (hF : F < n) (hne : F ≠ L)
    (hes : exec n (RaftCluster.initial C n) es = some c) (hlead : Leads c L T)
    (hnext : ∀ v ∈ (c.servers L).nextIndex[F]?, v - 1 < (c.servers L).lastIncludedIndex)
    (haccept : (c.servers F).currentTerm ≤ T) :
    ∃ args follower,
      appendMissingEntries (c.servers L) T F = .ok (some (.installSnapshot args)) ∧
      installSnapshot (c.servers F) args = .ok (follower, ⟨T⟩) ∧
      (∀ k, ∃ d, snapshotRounds n L F (k+1) c = some d ∧ Leads d L T ∧
        (d.servers L).lastIncludedIndex = (c.servers L).lastIncludedIndex ∧
        appendMissingEntries (d.servers L) T F = .ok (some (.installSnapshot args)) ∧
        d.servers F = follower) ∧
      ∀ fs d, Meets (step n) (fun c e => Leads c L T ∧ AnswersOther L F c e) c fs →
        exec n c fs = some d → Leads d L T →
        ∃ args', appendMissingEntries (d.servers L) T F = .ok (some (.installSnapshot args')) ∧
          args.lastIncludedIndex ≤ args'.lastIncludedIndex := by
  obtain ⟨a,hs,hb⟩ := reachable_bounded es hes
  obtain ⟨v,hv,-⟩ := (represented hs hb L).next hlead.1 F hF
  have hlow := hnext v hv
  have hsend := (snapshot_sent_iff _).mpr ⟨hlead.1,hlead.2,⟨v,hv,hlow⟩,rfl⟩
  obtain ⟨follower,hinstall⟩ := snapshot_answered hL hF hne es hes _ hsend haccept
  refine ⟨_,follower,hsend,hinstall,fun k => ?_,fun fs d hm hfs hd => ?_⟩
  · have hagain := install_again (peer_ordered hs F) _ (sent_term _ hsend) hinstall
    obtain ⟨d,hd,hleader,hfollower⟩ := snapshot_rounds hL hF hne _ follower hagain k c hsend
      hinstall
    exact ⟨d,hd,by rw [Leads, hleader]; exact hlead,by rw [hleader],by rw [hleader]; exact hsend,
      hfollower⟩
  · obtain ⟨a',-,-,hincl,hkept⟩ := sim_run _ _ (behind_carried L F T (some v) _) fs hs
      ⟨le_refl (c.servers L).lastIncludedIndex,fun _ => hv⟩ hm hfs
    exact ⟨_,(snapshot_sent_iff _).mpr ⟨hd.1,hd.2,⟨v,hkept hd,by omega⟩,rfl⟩,hincl⟩

def firstLeader : List (Event ℕ) :=
  [.election 0,.requestVote 0 1,.requestVoteReply 0 1,.countVote 0 1,.gatherVotes 0,
    .concludeElection 0,.start 0 (some 7)]

/-- The leader commits its first entry with server 2, discards it and appends
a second one. -/
def discards (k : ℕ) : List (Event ℕ) :=
  [.appendMissingEntries 0 1 2,.appendEntries k,.handleAppendReply k,.advanceCommitIndex 0,
    .snapshot 0 1 [3],.start 0 (some 8)]

def sentSnapshot : InstallSnapshotArgs := ⟨1,0,0,1,[3]⟩

/-- Meanwhile server 2 follows the log of the leader. -/
def othersFollow : List (Event ℕ) :=
  [.appendMissingEntries 0 1 2,.appendEntries 1,.handleAppendReply 1,.advanceCommitIndex 0]

theorem never_fed_after_snapshot_three : ∃ c d u args,
    RaftCluster.exec 3 (RaftCluster.initial ℕ 3) (firstLeader ++ discards 0) = some c ∧
    snapshotRounds 3 0 1 3 c = some d ∧ Leads d 0 1 ∧
    appendMissingEntries (d.servers 0) 1 1 = .ok (some (.installSnapshot sentSnapshot)) ∧
    RaftCluster.exec 3 c othersFollow = some u ∧ (u.servers 0).commitIndex = 1 ∧
    appendMissingEntries (u.servers 0) 1 1 = .ok (some (.installSnapshot args)) := by
  obtain ⟨c,hc⟩ := Option.isSome_iff_exists.mp (by decide +kernel : (RaftCluster.exec 3
    (RaftCluster.initial ℕ 3) (firstLeader ++ discards 0)).isSome)
  have hstate : ∀ v ∈ RaftCluster.exec 3 (RaftCluster.initial ℕ 3) (firstLeader ++ discards 0),
      Leads v 0 1 ∧
      (∀ x ∈ (v.servers 0).nextIndex[1]?, x-1 < (v.servers 0).lastIncludedIndex) ∧
      (v.servers 1).currentTerm ≤ 1 ∧
      (appendMissingEntries (v.servers 0) 1 1).toOption =
        some (some (.installSnapshot sentSnapshot)) ∧
      Meets (step 3) (fun c e => Leads c 0 1 ∧ AnswersOther 0 1 c e) v othersFollow ∧
      (RaftCluster.exec 3 v othersFollow).isSome ∧
      ∀ u ∈ RaftCluster.exec 3 v othersFollow, Leads u 0 1 ∧ (u.servers 0).commitIndex = 1 := by
    decide +kernel
  obtain ⟨hlead,hnext,haccept,hreq,hmeets,hsome,hrest⟩ := hstate c hc
  obtain ⟨u,hu⟩ := Option.isSome_iff_exists.mp hsome
  obtain ⟨hleadu,hcommit⟩ := hrest u hu
  rw [to_option_some] at hreq
  obtain ⟨args,follower,hsend,-,hrounds,hruns⟩ := never_fed_after_snapshot 3 _ c 0 1 1 (by decide)
    (by decide) (by decide) hc hlead hnext haccept
  obtain rfl : sentSnapshot = args := by simpa using hreq.symm.trans hsend
  obtain ⟨d,hd,hleadd,-,hagain,-⟩ := hrounds 2
  obtain ⟨args,hargs,-⟩ := hruns othersFollow u hmeets hu hleadu
  exact ⟨c,d,u,args,hc,hd,hleadd,hagain,hu,hcommit,hargs⟩

theorem snapshot_sent_again : ∃ c d,
    RaftCluster.exec 3 (RaftCluster.initial ℕ 3) (firstLeader ++ discards 0) = some c ∧
    appendMissingEntries (c.servers 0) 1 1 = .ok (some (.installSnapshot sentSnapshot)) ∧
    (c.servers 1).currentTerm = 1 ∧
    RaftCluster.exec 3 c [.appendMissingEntries 0 1 1,.installSnapshot 0,
      .installSnapshotReply 0] = some d ∧ Leads d 0 1 ∧ (d.servers 1).lastIncludedIndex = 0 ∧
    appendMissingEntries (d.servers 0) 1 1 = .ok (some (.installSnapshot sentSnapshot)) ∧
    lastLogIndex (d.servers 1) = 0 ∧ lastLogIndex (d.servers 0) = 1 := by
  obtain ⟨c,hc⟩ := Option.isSome_iff_exists.mp (by decide +kernel : (RaftCluster.exec 3
    (RaftCluster.initial ℕ 3) (firstLeader ++ discards 0)).isSome)
  have hstate : ∀ u ∈ RaftCluster.exec 3 (RaftCluster.initial ℕ 3) (firstLeader ++ discards 0),
      (appendMissingEntries (u.servers 0) 1 1).toOption =
        some (some (.installSnapshot sentSnapshot)) ∧ (u.servers 1).currentTerm = 1 ∧
      (RaftCluster.exec 3 u [.appendMissingEntries 0 1 1,.installSnapshot 0,
        .installSnapshotReply 0]).isSome ∧
      ∀ v ∈ RaftCluster.exec 3 u [.appendMissingEntries 0 1 1,.installSnapshot 0,
          .installSnapshotReply 0],
        Leads v 0 1 ∧ (v.servers 1).lastIncludedIndex = 0 ∧
        (appendMissingEntries (v.servers 0) 1 1).toOption =
          some (some (.installSnapshot sentSnapshot)) ∧
        lastLogIndex (v.servers 1) = 0 ∧ lastLogIndex (v.servers 0) = 1 := by
    decide +kernel
  obtain ⟨hreq,hterm,hsome,hrest⟩ := hstate c hc
  obtain ⟨d,hd⟩ := Option.isSome_iff_exists.mp hsome
  obtain ⟨hlead,hincl,hagain,hF,hL⟩ := hrest d hd
  rw [to_option_some] at hreq hagain
  exact ⟨c,d,hc,hreq,hterm,hd,hlead,hincl,hagain,hF,hL⟩

end Mitdist.SnapshotRounds
