import Mitdist.StateMachineSafety

/-!
# Where entries and snapshots come from

An entry reaches a log by `Start` on a leader or in a request that carries
entries of a leader's log, and a snapshot reaches a server from its own service
or in a request that carries a leader's snapshot. What holds of everything that
the services hand over therefore holds of every log, every snapshot and every
request in flight, and of whatever an instance puts on its apply channel.
-/

set_option autoImplicit false

namespace Mitdist.RaftContents
open Mitdist.RaftPeer Mitdist.RaftHandlers Mitdist.RaftCluster Mitdist.RaftOutcomes
open Mitdist.RaftInstance Mitdist.RaftIndices Mitdist.RaftEvents Mitdist.RaftServers
open Mitdist.RaftRelation Mitdist.RaftSimulation Mitdist.RaftSafety Mitdist.StateMachineSafety
open Mitdist.Persistence Mitdist.TransitionSystem

variable {C : Type} {n : ℕ} {c c' : Cluster C} {a : Past C} {rf rf' : Raft C}

theorem append_loop_mem (entries : List (LogEntry C)) (h : appendLoop rf entries = .ok rf')
    (e : LogEntry C) (he : e ∈ rf'.log) : e ∈ rf.log ∨ e ∈ entries := by
  induction entries with
  | nil =>
    obtain rfl := Except.ok.inj h
    exact Or.inl he
  | cons d entries ih =>
    rw [appendLoop, bind_ok] at h
    obtain ⟨present,-,h⟩ := h
    split_ifs at h
    · exact (ih h).imp_right (List.mem_cons_of_mem d)
    · rw [bind_ok] at h
      obtain ⟨kept,hk,h⟩ := h
      obtain rfl := Except.ok.inj h
      rw [logEntriesTo, sliceTo] at hk
      split_ifs at hk
      obtain rfl := Except.ok.inj hk
      exact (List.mem_append.mp he).imp_left List.mem_of_mem_take

theorem append_entries_mem (args : AppendEntriesArgs C) (reply : AppendEntriesReply)
    (h : appendEntries rf args = .ok (rf', reply)) (e : LogEntry C) (he : e ∈ rf'.log) :
    e ∈ rf.log ∨ e ∈ args.entries := by
  have hsame : (stopCandidacy (handleHigherTerm rf args.term) args.term).log = rf.log := by
    unfold stopCandidacy handleHigherTerm
    split_ifs <;> rfl
  generalize hdef : stopCandidacy (handleHigherTerm rf args.term) args.term = rf1 at hsame
  rw [← hsame]
  rcases (append_entries_outcome args reply rf1 hdef.symm h).2 with
    ⟨-,rfl,-⟩ | ⟨-,-,-,-,rf2,hrf2,rfl⟩ | ⟨-,-,rfl⟩
  · exact Or.inl he
  · have hfollow : (followCommit rf2 args.leaderCommitIndex).log = rf2.log := by
      unfold followCommit
      split_ifs <;> rfl
    rw [hfollow] at he
    rw [appendEntriesLocal] at hrf2
    split_ifs at hrf2
    · obtain rfl := Except.ok.inj hrf2
      exact Or.inl he
    · rw [bind_ok] at hrf2
      obtain ⟨rf3,hloop,hrf2⟩ := hrf2
      obtain rfl := Except.ok.inj hrf2
      exact append_loop_mem args.entries hloop e he
  · exact Or.inl he

theorem trim_mem (index : ℤ) (h : trim rf index = .ok rf') (e : LogEntry C) (he : e ∈ rf'.log) :
    e ∈ rf.log := by
  obtain ⟨d,log,-,hlog,rfl⟩ := trim_outcome index h
  rcases hlog with ⟨rfl,-⟩ | ⟨-,-,hs⟩
  · simp at he
  · rw [sliceFrom] at hs
    split_ifs at hs
    obtain rfl := Except.ok.inj hs
    exact List.mem_of_mem_drop he

theorem install_snapshot_mem (args : InstallSnapshotArgs) (reply : InstallSnapshotReply)
    (h : installSnapshot rf args = .ok (rf', reply)) (e : LogEntry C) (he : e ∈ rf'.log) :
    e ∈ rf.log := by
  have hsame : (handleHigherTerm rf args.term).log = rf.log := by
    unfold handleHigherTerm
    split_ifs <;> rfl
  rw [← hsame]
  rcases install_snapshot_outcome args reply _ rfl h with ⟨-,rfl⟩ | ⟨-,-,found,rf2,-,hrf2,rfl⟩
  · exact he
  · rw [rebase] at hrf2
    split_ifs at hrf2
    · exact trim_mem _ hrf2 e he
    · obtain rfl := Except.ok.inj hrf2
      simp [persist] at he

/-- The entry that a leader appends for a command. -/
def newEntry (rf : Raft C) (command : Option C) : LogEntry C :=
  { index := lastLogIndex rf + 1, term := rf.currentTerm, command := command }

/-- A section finds an entry in the log, takes it from a request, or appends it
for a command. -/
theorem log_section (hk : Kept rf) (s : Section C) (m : Option (ApplyMsg C)) (hr : Ran rf s rf' m)
    (e : LogEntry C) (he : e ∈ rf'.log) : e ∈ rf.log ∨
      (∃ args, s = .appendEntries args ∧ e ∈ args.entries) ∨
      ∃ command, s = .start command ∧ rf.state = .leader ∧ e = newEntry rf command := by
  have raised : ∀ t, (handleHigherTerm rf t).log = rf.log := by
    intro t
    unfold handleHigherTerm
    split_ifs <;> rfl
  cases hr with
  | start command _ r h =>
    obtain ⟨index,term,isLeader⟩ := r
    obtain ⟨-,hsame,hlead⟩ := start_outcome command index term isLeader h
    by_cases hl : rf.state = .leader
    · obtain ⟨matchIndex,rfl⟩ := hlead hl
      refine (List.mem_append.mp he).imp_right (fun he => Or.inr ⟨command,rfl,hl,?_⟩)
      exact List.mem_singleton.mp he
    · exact Or.inl (hsame hl ▸ he)
  | snapshot index bytes _ h =>
    rcases snapshot_outcome index bytes h with rfl | ⟨-,-,rf2,ht,rfl⟩
    · exact Or.inl he
    · exact Or.inl (trim_mem _ ht e he)
  | requestVote args _ reply h =>
    rcases request_vote_outcome args reply h with rfl | rfl <;> exact Or.inl (raised _ ▸ he)
  | appendEntries args _ reply h =>
    exact (append_entries_mem args reply h e he).imp_right (fun he => Or.inl ⟨args,rfl,he⟩)
  | installSnapshot args _ reply h => exact Or.inl (install_snapshot_mem args reply h e he)
  | handleHigherTerm term => exact Or.inl (raised _ ▸ he)
  | handleAppendReply server args reply _ h =>
    rcases append_reply_outcome server args reply h with
      rfl | ⟨-,-,-,⟨-,-,rfl⟩ | ⟨-,next,rfl⟩⟩
    · exact Or.inl (raised _ ▸ he)
    · exact Or.inl he
    · exact Or.inl he
  | election _ args h =>
    rw [election_outcome args h] at he
    exact Or.inl he
  | concludeElection preGatherTerm elected _ h =>
    rw [concludeElection] at h
    split_ifs at h
    · obtain ⟨nextIndex,matchIndex,rfl⟩ := become_leader_outcome h
      exact Or.inl he
    · obtain rfl := Except.ok.inj h
      exact Or.inl he
  | advanceCommitIndex _ h =>
    rcases advance_commit_outcome h with rfl | ⟨-,-,-,rfl⟩ <;> exact Or.inl he
  | apply _ msg _ h =>
    rcases apply_outcome msg h with ⟨-,rfl,-⟩ | ⟨-,rfl,-⟩ <;> exact Or.inl he
  | crash =>
    simp only [make, hk.raftstate, saved] at he
    exact Or.inl he

/-- A section keeps the snapshot and the index that it stands for, or takes
both from the service or from a request. -/
theorem image_section (hk : Kept rf) (ho : Ordered rf) (s : Section C) (m : Option (ApplyMsg C))
    (hr : Ran rf s rf' m) :
    rf'.lastIncludedIndex = rf.lastIncludedIndex ∧ rf'.snapshot = rf.snapshot ∨
    (∃ index bytes, s = .snapshot index bytes ∧ rf.lastIncludedIndex < rf'.lastIncludedIndex ∧
      rf'.lastIncludedIndex = index - 1 ∧ rf'.snapshot = bytes) ∨
    ∃ args, s = .installSnapshot args ∧ rf.lastIncludedIndex < rf'.lastIncludedIndex ∧
      rf'.lastIncludedIndex = args.lastIncludedIndex ∧ rf'.snapshot = args.snapshot := by
  have raised : ∀ t, (handleHigherTerm rf t).lastIncludedIndex = rf.lastIncludedIndex ∧
      (handleHigherTerm rf t).snapshot = rf.snapshot := by
    intro t
    unfold handleHigherTerm
    split_ifs <;> exact ⟨rfl,rfl⟩
  cases hr with
  | start command _ r h =>
    obtain ⟨index,term,isLeader⟩ := r
    obtain ⟨-,hsame,hlead⟩ := start_outcome command index term isLeader h
    by_cases hl : rf.state = .leader
    · obtain ⟨matchIndex,rfl⟩ := hlead hl
      exact Or.inl ⟨rfl,rfl⟩
    · rw [hsame hl]
      exact Or.inl ⟨rfl,rfl⟩
  | snapshot index bytes _ h =>
    rcases snapshot_indices ho index bytes h with rfl | ⟨hlow,-,hi,-⟩
    · exact Or.inl ⟨rfl,rfl⟩
    · rcases snapshot_outcome index bytes h with rfl | ⟨-,-,rf2,-,rfl⟩
      · exact Or.inl ⟨rfl,rfl⟩
      · exact Or.inr (Or.inl ⟨index,bytes,rfl,by omega,hi,rfl⟩)
  | requestVote args _ reply h =>
    rcases request_vote_outcome args reply h with rfl | rfl <;> exact Or.inl (raised _)
  | appendEntries args _ reply h =>
    have hsame : (stopCandidacy (handleHigherTerm rf args.term) args.term).lastIncludedIndex =
        rf.lastIncludedIndex ∧
        (stopCandidacy (handleHigherTerm rf args.term) args.term).snapshot = rf.snapshot := by
      unfold stopCandidacy
      split_ifs <;> exact raised _
    rcases (append_entries_outcome args reply _ rfl h).2 with
      ⟨-,rfl,-⟩ | ⟨-,-,-,-,rf2,hrf2,rfl⟩ | ⟨-,-,rfl⟩
    · exact Or.inl hsame
    · rw [← hsame.1, ← hsame.2]
      unfold followCommit
      rcases append_local_outcome args.entries hrf2 with rfl | ⟨log,rfl⟩ <;> split_ifs <;>
        exact Or.inl ⟨rfl,rfl⟩
    · exact Or.inl hsame
  | installSnapshot args _ reply h =>
    rcases install_snapshot_indices ho args reply h with ⟨hq,hold⟩ | ⟨ht,hlow,hi,-⟩
    · rcases install_snapshot_outcome args reply _ rfl h with ⟨-,rfl⟩ | ⟨ht,hlow,-⟩
      · exact Or.inl (raised _)
      · rw [(raised _).1] at hlow
        rcases hold with hold | hold
        · exact absurd hold ht
        · omega
    · rcases install_snapshot_outcome args reply _ rfl h with
        ⟨hold | hold,-⟩ | ⟨-,-,found,rf2,-,hrf2,rfl⟩
      · rw [higher_term_term] at hold
        omega
      · rw [(raised _).1] at hold
        omega
      · refine Or.inr (Or.inr ⟨args,rfl,by omega,hi,?_⟩)
        rw [rebase] at hrf2
        split_ifs at hrf2
        · obtain ⟨e,log,-,-,rfl⟩ := trim_outcome _ hrf2
          rfl
        · obtain rfl := Except.ok.inj hrf2
          rfl
  | handleHigherTerm term => exact Or.inl (raised _)
  | handleAppendReply server args reply _ h =>
    rcases append_reply_outcome server args reply h with
      rfl | ⟨-,-,-,⟨-,-,rfl⟩ | ⟨-,next,rfl⟩⟩
    · exact Or.inl (raised _)
    · exact Or.inl ⟨rfl,rfl⟩
    · exact Or.inl ⟨rfl,rfl⟩
  | election _ args h =>
    rw [election_outcome args h]
    exact Or.inl ⟨rfl,rfl⟩
  | concludeElection preGatherTerm elected _ h =>
    rw [concludeElection] at h
    split_ifs at h
    · obtain ⟨nextIndex,matchIndex,rfl⟩ := become_leader_outcome h
      exact Or.inl ⟨rfl,rfl⟩
    · obtain rfl := Except.ok.inj h
      exact Or.inl ⟨rfl,rfl⟩
  | advanceCommitIndex _ h =>
    rcases advance_commit_outcome h with rfl | ⟨-,-,-,rfl⟩ <;> exact Or.inl ⟨rfl,rfl⟩
  | apply _ msg _ h =>
    rcases apply_outcome msg h with ⟨-,rfl,-⟩ | ⟨-,rfl,-⟩ <;> exact Or.inl ⟨rfl,rfl⟩
  | crash => exact Or.inl ⟨by simp only [make, hk.raftstate, saved],hk.snapshot⟩

/-- All entries of logs and requests have one property, and all snapshots of
servers and requests another one, together with the indices they stand for. -/
structure Contents (P : LogEntry C → Prop) (I : ℤ → Bytes → Prop) (c : Cluster C) : Prop where
  kept : ∀ i, Kept (c.servers i)
  logs : ∀ i, ∀ e ∈ (c.servers i).log, P e
  appends : ∀ r ∈ c.appendCalls, ∀ e ∈ r.args.entries, P e
  images : ∀ i, I (c.servers i).lastIncludedIndex (c.servers i).snapshot
  snapshots : ∀ r ∈ c.snapshotCalls, I r.args.lastIncludedIndex r.args.snapshot

theorem contents_initial (n : ℕ) (P : LogEntry C → Prop) (I : ℤ → Bytes → Prop) (h : I (-1) []) :
    Contents P I (RaftCluster.initial C n) where
  kept i := kept_make n i {}
  logs i e he := by simp [RaftCluster.initial, make, readPersist] at he
  appends r hr := by simp [RaftCluster.initial] at hr
  images i := h
  snapshots r hr := by simp [RaftCluster.initial] at hr

theorem contents_mono (P Q : LogEntry C → Prop) (I J : ℤ → Bytes → Prop) (h : Contents P I c)
    (hp : ∀ e, P e → Q e) (hi : ∀ x bytes, I x bytes → J x bytes) : Contents Q J c where
  kept := h.kept
  logs i e he := hp e (h.logs i e he)
  appends r hr e he := hp e (h.appends r hr e he)
  images i := hi _ _ (h.images i)
  snapshots r hr := hi _ _ (h.snapshots r hr)

theorem start_origin (e : Event C) (j : ℕ) (command : Option C)
    (h : sectionOf c e = some (j, .start command)) : e = .start j command := by
  cases e <;> simp [sectionOf, Option.bind_eq_some_iff] at h
  obtain ⟨rfl,rfl⟩ := h
  rfl

/-- One event keeps both properties if what is handed over has them. -/
theorem contents_runs (hs : Sim n c a) (P : LogEntry C → Prop) (I : ℤ → Bytes → Prop)
    (h : Contents P I c) (ev : Event C) (hr : Runs n c ev c')
    (hp : ∀ i command, ev = .start i command → (c.servers i).state = .leader →
      P (newEntry (c.servers i) command))
    (hi : ∀ i index bytes, ev = .snapshot i index bytes →
      (c.servers i).lastIncludedIndex < index - 1 → I (index - 1) bytes) : Contents P I c' where
  kept j := by
    rcases runs_server hs ev hr j with hj | ⟨s,m,-,hran⟩
    · rw [hj]
      exact h.kept j
    · exact kept_section (h.kept j) s m hran
  logs j e he := by
    rcases runs_server hs ev hr j with hj | ⟨s,m,hsec,hran⟩
    · rw [hj] at he
      exact h.logs j e he
    · rcases log_section (h.kept j) s m hran e he with he | ⟨args,rfl,he⟩ | ⟨command,rfl,hl,rfl⟩
      · exact h.logs j e he
      · obtain ⟨k,r,-,hk,-,rfl⟩ := append_origin ev j args hsec
        exact h.appends r (List.mem_of_getElem? hk) e he
      · exact hp j command (start_origin ev j command hsec) hl
  appends r hmem e he := by
    rcases runs_append_calls n c c' ev hr r hmem with ⟨r0,hr0,hargs⟩ | ⟨i,term,server,hsend⟩
    · rw [← hargs] at he
      exact h.appends r0 hr0 e he
    · rcases append_missing_outcome term server _ hsend with
        hn | ⟨-,-,⟨_,-,hreq⟩ | ⟨next,prev,missing,-,hmiss,hreq⟩⟩
      · simp at hn
      · simp at hreq
      · simp only [Option.some.injEq, Request.appendEntries.injEq] at hreq
        rw [hreq] at he
        rcases hmiss with ⟨-,hm⟩ | ⟨-,rfl⟩
        · rw [logEntries, sliceFrom] at hm
          split_ifs at hm
          obtain rfl := Except.ok.inj hm
          exact h.logs i e (List.mem_of_mem_drop he)
        · simp at he
  images j := by
    rcases runs_server hs ev hr j with hj | ⟨s,m,hsec,hran⟩
    · rw [hj]
      exact h.images j
    · rcases image_section (h.kept j) (peer_ordered hs j) s m hran with
        ⟨hx,hb⟩ | ⟨index,bytes,rfl,hlow,hx,hb⟩ | ⟨args,rfl,-,hx,hb⟩
      · rw [hx, hb]
        exact h.images j
      · rw [hx, hb]
        exact hi j index bytes (snapshot_origin ev j index bytes hsec) (by omega)
      · obtain ⟨k,r,-,hk,-,rfl⟩ := install_origin ev j args hsec
        rw [hx, hb]
        exact h.snapshots r (List.mem_of_getElem? hk)
  snapshots r hmem := by
    rcases runs_snapshot_calls n c c' ev hr r hmem with ⟨r0,hr0,hargs⟩ | ⟨i,term,server,hsend⟩
    · rw [← hargs]
      exact h.snapshots r0 hr0
    · rcases append_missing_outcome term server _ hsend with
        hn | ⟨-,-,⟨_,-,hreq⟩ | ⟨_,_,_,-,-,hreq⟩⟩
      · simp at hn
      · simp only [Option.some.injEq, Request.installSnapshot.injEq] at hreq
        rw [hreq]
        exact h.images i
      · simp at hreq

/-- A snapshot that waits to be applied is one that was handed over. -/
def Pending (c : Cluster C) : Prop :=
  ∀ i, (c.servers i).snapshotInstalled = true → (c.servers i).lastIncludedIndex ≠ -1

theorem pending_runs (hs : Sim n c a) (P : LogEntry C → Prop) (I : ℤ → Bytes → Prop)
    (h : Contents P I c) (hI : ∀ bytes, I (-1) bytes → bytes = []) (hp : Pending c) (ev : Event C)
    (hr : Runs n c ev c') : Pending c' := by
  intro j hinst
  rcases runs_server hs ev hr j with hj | ⟨s,m,-,hran⟩
  · rw [hj] at hinst ⊢
    exact hp j hinst
  · obtain ⟨b,w⟩ := (hs.peer j).window
    have hincl := w.included
    by_cases ha : s = .apply
    · subst ha
      cases hran with
      | apply _ msg _ he =>
        rcases apply_outcome msg he with ⟨-,hrf,-⟩ | ⟨hno,hrf,-⟩ <;> rw [hrf] at hinst ⊢
        · simp at hinst
        · exact absurd hinst (by simp [hno])
    by_cases hc : s = .crash
    · subst hc
      generalize c'.servers j = rf' at hran hinst
      cases hran with
      | crash =>
        simp only [make, (h.kept j).raftstate, saved, (h.kept j).snapshot] at hinst ⊢
        intro hx
        have himage := h.images j
        rw [hx] at himage
        simp [hI _ himage] at hinst
    obtain ⟨-,-,⟨hx,hi⟩ | ⟨index,bytes,-,hlow,hx,-⟩ | ⟨args,-,-,hlow,hx,-⟩⟩ :=
      moved_section (peer_ordered hs j) s m hran ha hc
    · rw [hx]
      exact hp j (hi ▸ hinst)
    · omega
    · omega

/-- Some call of `Start` was given the place of the entry. -/
def Submitted (c : Cluster C) (e : LogEntry C) : Prop :=
  ∃ s ∈ c.started, s.isLeader = true ∧ s.index = e.index + 1 ∧ s.term = e.term ∧
    s.command = e.command

/-- There is no snapshot yet, or some service handed it over in the run. -/
def Handed (es : List (Event C)) (x : ℤ) (bytes : Bytes) : Prop :=
  x = -1 ∧ bytes = [] ∨ 0 ≤ x ∧ ∃ j, .snapshot j (x + 1) bytes ∈ es

/-- A call of `Start` on a leader returned the index for the command. -/
def Passed (c : Cluster C) (index : ℤ) (command : Option C) : Prop :=
  ∃ s ∈ c.started, s.isLeader = true ∧ s.index = index ∧ s.command = command

/-- Where a message comes from. If the apply loop reads no discarded entry, its
command is not the one of the placeholder for the snapshot. -/
structure Given (reads : Prop) (es : List (Event C)) (c : Cluster C) (m : ApplyMsg C) : Prop where
  command : ∀ d, m.command = some d → Passed c m.commandIndex (some d)
  valid : reads → m.commandValid = true → Passed c m.commandIndex m.command
  snapshot : m.snapshotValid = true → ∃ j, .snapshot j m.snapshotIndex m.snapshot ∈ es

theorem runs_started (ev : Event C) (hr : Runs n c ev c') : c.started ⊆ c'.started := by
  cases hr with
  | start i command rf index term isLeader hi h => exact List.subset_append_left _ _
  | appendMissingEntries i term server request hi hs hne he =>
    rcases request with _ | _ | _ <;> exact List.Subset.refl _
  | _ => exact List.Subset.refl _

theorem start_submitted (i : ℕ) (command : Option C) (hr : Runs n c (.start i command) c')
    (hl : (c.servers i).state = .leader) : Submitted c' (newEntry (c.servers i) command) := by
  cases hr with
  | start _ _ rf index term isLeader hi h =>
    refine ⟨_,List.mem_append_right _ (List.mem_singleton_self _),?_⟩
    rw [start, if_pos hl, bind_ok] at h
    obtain ⟨rf1,hrf1,h⟩ := h
    rw [appendEntryLocal, bind_ok] at hrf1
    obtain ⟨matchIndex,-,hrf1⟩ := hrf1
    obtain rfl := Except.ok.inj hrf1
    obtain ⟨-,rfl,rfl,rfl⟩ := by simpa only [pure, Except.pure, Except.ok.injEq,
      Prod.mk.injEq] using h
    simp [newEntry, persist, lastLogIndex]
    omega

/-- What is put on a channel is an entry of the log or the snapshot. -/
theorem apply_given (reads : Prop) (es : List (Event C)) (hs : Sim n c a) (i : ℕ) (rf : Raft C)
    (m : ApplyMsg C) (h : Contents (Submitted c) (Handed es) c) (hp : Pending c)
    (hr : reads → Reads c (.apply i)) (he : apply (c.servers i) = .ok (rf, m)) :
    Given reads es c m := by
  rcases apply_outcome m he with ⟨hinst,-,rfl⟩ | ⟨hinst,-,e,hentry,rfl⟩
  · refine ⟨fun d hd => by simp at hd,fun _ hv => by simp at hv,fun _ => ?_⟩
    rcases h.images i with ⟨hx,-⟩ | ⟨-,hx⟩
    · exact absurd hx (hp i hinst)
    · exact hx
  · have hindex := entry_index (peer_ordered hs i) _ e hentry
    rw [logEntry] at hentry
    split_ifs at hentry with hx
    · obtain rfl := Except.ok.inj hentry
      refine ⟨fun d hd => by simp at hd,fun hreads _ => ?_,fun hv => by simp at hv⟩
      exact absurd hx ((hr hreads).resolve_left (by simp [hinst]))
    · rw [load_ok] at hentry
      obtain ⟨s,hmem,hl,hx,-,hcmd⟩ := h.logs i e (List.mem_of_getElem? hentry.2)
      have hpassed : Passed c ((c.servers i).lastApplied + 1 + 1) e.command :=
        ⟨s,hmem,hl,by rw [hx, hindex],hcmd⟩
      exact ⟨fun d hd => by rw [← hd]; exact hpassed,fun _ _ => hpassed,fun hv => by simp at hv⟩

/-- In every run, a command that is not nil and that an instance puts on its
apply channel was passed to a call of `Start` that returned its index on a
leader, and a snapshot was passed to `Snapshot` with its index by the service of
some server. If the apply loop reads no discarded entry, all commands were passed
to `Start` in that way. -/
theorem applied_given (n : ℕ) (es : List (Event C)) (c : Cluster C)
    (h : exec n (RaftCluster.initial C n) es = some c) (i : ℕ) (m : ApplyMsg C)
    (hm : (i, m) ∈ c.applied) :
    (∀ d, m.command = some d → ∃ s ∈ c.started, s.isLeader = true ∧ s.index = m.commandIndex ∧
      s.command = some d) ∧
    (m.snapshotValid = true → ∃ j, .snapshot j m.snapshotIndex m.snapshot ∈ es) ∧
    (Meets (step n) Reads (RaftCluster.initial C n) es → m.commandValid = true →
      ∃ s ∈ c.started, s.isLeader = true ∧ s.index = m.commandIndex ∧ s.command = m.command) := by
  have hcarried : ∀ reads : Prop, Carried (C := C) n
      (fun c e => e ∈ es ∧ (reads → Reads c e)) (fun c _ =>
        (Contents (Submitted c) (Handed es) c ∧ Pending c) ∧
          ∀ x ∈ c.applied, Given reads es c x.2) := by
    intro reads c ev c' i a a' hs ⟨⟨hc,hp⟩,hgiven⟩ ⟨hev,hreads⟩ hr hst hs' heff
    have hsub := runs_started ev hr
    have hmono : ∀ e, Submitted c e → Submitted c' e := fun e ⟨s,hmem,hrest⟩ =>
      ⟨s,hsub hmem,hrest⟩
    refine ⟨⟨?_,pending_runs hs _ _ hc ?_ hp ev hr⟩,fun x hx => ?_⟩
    · refine contents_runs hs _ _ (contents_mono _ _ _ _ hc hmono (fun _ _ hi => hi)) ev hr ?_ ?_
      · rintro i command rfl hl
        exact start_submitted i command hr hl
      · rintro i index bytes rfl hlow
        obtain ⟨b,w⟩ := (hs.peer i).window
        have hincl := w.included
        exact Or.inr ⟨by omega,i,by rwa [Int.sub_add_cancel]⟩
    · rintro bytes (⟨-,hb⟩ | ⟨hx,-⟩)
      · exact hb
      · omega
    · have hpassed : ∀ index command, Passed c index command → Passed c' index command :=
        fun _ _ ⟨s,hmem,hrest⟩ => ⟨s,hsub hmem,hrest⟩
      have hstep : Given reads es c x.2 → Given reads es c' x.2 := fun hg =>
        ⟨fun d hd => hpassed _ _ (hg.command d hd),fun hr hv => hpassed _ _ (hg.valid hr hv),
          hg.snapshot⟩
      rcases runs_applied ev hr x hx with hx | ⟨rf,rfl,-,he⟩
      · exact hstep (hgiven x hx)
      · exact hstep (apply_given reads es hs x.1 rf x.2 hc hp hreads he)
  have hmeets : Meets (step n) (fun c e => e ∈ es ∧
      (Meets (step n) Reads (RaftCluster.initial C n) es → Reads c e))
      (RaftCluster.initial C n) es := by
    by_cases hreads : Meets (step n) Reads (RaftCluster.initial C n) es
    · exact meets_mem (step n) _ Reads es _ (fun c e he hr => ⟨he,fun _ => hr⟩) hreads
    · exact meets_of_mem _ _ es _ (fun c e he => ⟨he,fun hr => absurd hr hreads⟩)
  obtain ⟨a,-,-,-,hgiven⟩ := sim_run _ _ (hcarried _) es (sim_initial C n)
    ⟨⟨contents_initial n _ _ (Or.inl ⟨rfl,rfl⟩),fun i hi => by
      simp [RaftCluster.initial, make] at hi⟩,fun x hx => by simp [RaftCluster.initial] at hx⟩
    hmeets h
  have hall := hgiven _ hm
  exact ⟨hall.command,hall.snapshot,hall.valid⟩

/-- The leader applies a command and hands a snapshot of it over, which a third
server installs and applies. -/
def snapshotSent : List (Event ℕ) :=
  replicated ++ [.handleAppendReply 0, .advanceCommitIndex 0, .apply 0, .snapshot 0 1 [1],
    .appendMissingEntries 0 1 2, .installSnapshot 0, .apply 2]

theorem applied_given_sent : ∃ c,
    RaftCluster.exec 3 (RaftCluster.initial ℕ 3) snapshotSent = some c ∧
    (0, command 1 7) ∈ c.applied ∧
    (∃ s ∈ c.started, s.isLeader = true ∧ s.index = 1 ∧ s.command = some 7) ∧
    (2, { snapshotValid := true, snapshot := [1], snapshotTerm := 1, snapshotIndex := 1 }) ∈
      c.applied ∧ ∃ j, .snapshot j 1 [1] ∈ snapshotSent := by
  obtain ⟨c,hc⟩ := Option.isSome_iff_exists.mp (by decide +kernel :
    (RaftCluster.exec 3 (RaftCluster.initial ℕ 3) snapshotSent).isSome = true)
  have happlied : ∀ d ∈ RaftCluster.exec 3 (RaftCluster.initial ℕ 3) snapshotSent,
      (0, command 1 7) ∈ d.applied ∧
      (2, { snapshotValid := true, snapshot := [1], snapshotTerm := 1, snapshotIndex := 1 }) ∈
        d.applied := by
    decide +kernel
  obtain ⟨h0,h2⟩ := happlied c hc
  exact ⟨c,hc,h0,(applied_given 3 snapshotSent c hc 0 _ h0).1 7 rfl,h2,
    (applied_given 3 snapshotSent c hc 2 _ h2).2.1 rfl⟩

end Mitdist.RaftContents
