import Mitdist.RaftHandlers

/-!
# What each section can do

A section that returns took one of a few ways through its branches. Each way
is described once, by the fields it reads and the state it leaves, and later
proofs never unfold a section again.
-/

set_option autoImplicit false

namespace Mitdist.RaftOutcomes
open Mitdist.RaftPeer Mitdist.RaftHandlers

variable {C : Type} {rf rf' : Raft C}

/-- The fields that have to survive a crash. -/
def saved (rf : Raft C) : Persisted C where
  currentTerm := rf.currentTerm
  votedFor := rf.votedFor
  log := rf.log
  lastIncludedIndex := rf.lastIncludedIndex
  lastIncludedTerm := rf.lastIncludedTerm

theorem bind_ok {α β : Type} (x : Except Fault α) (f : α → Except Fault β) (y : β) :
    (x >>= f) = .ok y ↔ ∃ a, x = .ok a ∧ f a = .ok y := by
  cases x with
  | error e => simp [bind, Except.bind]
  | ok a => simp [bind, Except.bind]

theorem ok_bind {α β : Type} (a : α) (f : α → Except Fault β) :
    ((Except.ok a : Except Fault α) >>= f) = f a := rfl

theorem to_option_some {α : Type} (x : Except Fault α) (y : α) :
    x.toOption = some y ↔ x = .ok y := by
  cases x <;> simp [Except.toOption]

theorem load_ok {α : Type} (s : List α) (i : ℤ) (x : α) :
    load s i = .ok x ↔ 0 ≤ i ∧ s[i.toNat]? = some x := by
  unfold load
  split_ifs with h
  · simp
    omega
  · cases s[i.toNat]? with
    | none => simp
    | some y => simp; omega

theorem store_ok {α : Type} (s r : List α) (i : ℕ) (x : α) :
    store s i x = .ok r ↔ i < s.length ∧ r = s.set i x := by
  unfold store
  split_ifs with h
  · simp [h, eq_comm]
  · simp [h]

theorem higher_term_term (rf : Raft C) (t : ℕ) :
    (handleHigherTerm rf t).currentTerm = max rf.currentTerm t := by
  unfold handleHigherTerm
  split_ifs with h
  · simp only [persist]
    omega
  · omega

/-- Past the term comparison a peer that leads kept its whole state. -/
theorem higher_term_leader (rf : Raft C) (t : ℕ) (h : (handleHigherTerm rf t).state = .leader) :
    handleHigherTerm rf t = rf ∧ t ≤ rf.currentTerm := by
  unfold handleHigherTerm at h ⊢
  split_ifs with ht
  · rw [if_pos ht] at h
    simp [persist] at h
  · exact ⟨rfl,by omega⟩

/-- The request lies below the follower's snapshot and is not outdated, so
that it is answered with success and nothing is stored. -/
def Skips (rf : Raft C) (args : AppendEntriesArgs C) : Prop :=
  rf.currentTerm ≤ args.term ∧ args.prevLogIndex < rf.lastIncludedIndex

instance decidableSkips (rf : Raft C) (args : AppendEntriesArgs C) : Decidable (Skips rf args) :=
  inferInstanceAs (Decidable (_ ∧ _))

theorem prepared_fields (rf : Raft C) (t : ℕ) :
    (stopCandidacy (handleHigherTerm rf t) t).lastIncludedIndex = rf.lastIncludedIndex ∧
    (stopCandidacy (handleHigherTerm rf t) t).baseIndex = rf.baseIndex ∧
    (stopCandidacy (handleHigherTerm rf t) t).commitIndex = rf.commitIndex ∧
    (stopCandidacy (handleHigherTerm rf t) t).lastApplied = rf.lastApplied ∧
    (stopCandidacy (handleHigherTerm rf t) t).snapshotInstalled = rf.snapshotInstalled ∧
    (stopCandidacy (handleHigherTerm rf t) t).currentTerm = max rf.currentTerm t := by
  have ht := higher_term_term rf t
  unfold stopCandidacy
  refine ⟨?_,?_,?_,?_,?_,?_⟩ <;> split_ifs <;>
    first | exact ht | (unfold handleHigherTerm; split_ifs <;> rfl)

/-- The three answers to a request: below the snapshot, appended, rejected. -/
theorem append_entries_outcome (args : AppendEntriesArgs C) (reply : AppendEntriesReply)
    (rf1 : Raft C) (h1 : rf1 = stopCandidacy (handleHigherTerm rf args.term) args.term)
    (h : appendEntries rf args = .ok (rf', reply)) :
    reply.term = rf1.currentTerm ∧
    (args.prevLogIndex < rf1.lastIncludedIndex ∧ rf' = rf1 ∧ reply.success = true ∨
      ¬ args.prevLogIndex < rf1.lastIncludedIndex ∧ reply.success = true ∧
        entryHasTerm rf1 args.prevLogIndex args.prevLogTerm = .ok true ∧
        rf1.currentTerm ≤ args.term ∧
        (∃ rf2, appendEntriesLocal rf1 args.entries = .ok rf2 ∧
          rf' = followCommit rf2 args.leaderCommitIndex) ∨
      ¬ args.prevLogIndex < rf1.lastIncludedIndex ∧ reply.success = false ∧ rf' = rf1) := by
  subst h1
  rw [appendEntries] at h
  generalize stopCandidacy (handleHigherTerm rf args.term) args.term = rf1 at h ⊢
  split_ifs at h with hskip
  · simp only [Except.ok.injEq, Prod.mk.injEq] at h
    obtain ⟨rfl,rfl⟩ := h
    exact ⟨rfl,Or.inl ⟨hskip,rfl,rfl⟩⟩
  · rw [bind_ok] at h
    obtain ⟨logmatch,hlm,h⟩ := h
    rw [bind_ok] at h
    obtain ⟨info,-,h⟩ := h
    split_ifs at h with hok
    · rw [bind_ok] at h
      obtain ⟨rf2,hrf2,h⟩ := h
      simp only [pure, Except.pure, Except.ok.injEq, Prod.mk.injEq] at h
      obtain ⟨rfl,rfl⟩ := h
      exact ⟨rfl,Or.inr (Or.inl ⟨hskip,rfl,hok.1 ▸ hlm,by omega,rf2,hrf2,rfl⟩)⟩
    · simp only [pure, Except.pure, Except.ok.injEq, Prod.mk.injEq] at h
      obtain ⟨rfl,rfl⟩ := h
      exact ⟨rfl,Or.inr (Or.inr ⟨hskip,rfl,rfl⟩)⟩

theorem append_local_outcome (entries : List (LogEntry C))
    (h : appendEntriesLocal rf entries = .ok rf') :
    rf' = rf ∨ ∃ log, rf' = persist { rf with log := log } := by
  have hloop : ∀ (entries : List (LogEntry C)) (rf2 : Raft C), appendLoop rf entries = .ok rf2 →
      ∃ log, rf2 = { rf with log := log } := by
    intro entries
    induction entries with
    | nil => exact fun rf2 h => ⟨rf.log,(Except.ok.inj h).symm⟩
    | cons e entries ih =>
      intro rf2 h
      rw [appendLoop, bind_ok] at h
      obtain ⟨present,-,h⟩ := h
      split_ifs at h
      · exact ih rf2 h
      · rw [bind_ok] at h
        obtain ⟨kept,-,h⟩ := h
        exact ⟨_,(Except.ok.inj h).symm⟩
  rw [appendEntriesLocal] at h
  split_ifs at h
  · exact Or.inl (Except.ok.inj h).symm
  · rw [bind_ok] at h
    obtain ⟨rf2,h2,h⟩ := h
    obtain ⟨log,rfl⟩ := hloop entries rf2 h2
    exact Or.inr ⟨log,(Except.ok.inj h).symm⟩

/-- An installed snapshot is newer than the peer's own and not outdated. -/
theorem install_snapshot_outcome (args : InstallSnapshotArgs) (reply : InstallSnapshotReply)
    (rf1 : Raft C) (h1 : rf1 = handleHigherTerm rf args.term)
    (h : installSnapshot rf args = .ok (rf', reply)) :
    (args.term < rf1.currentTerm ∨ args.lastIncludedIndex ≤ rf1.lastIncludedIndex) ∧ rf' = rf1 ∨
    ¬ args.term < rf1.currentTerm ∧ rf1.lastIncludedIndex < args.lastIncludedIndex ∧
      ∃ found rf2, entryHasTerm rf1 args.lastIncludedIndex args.lastIncludedTerm = .ok found ∧
        rebase { rf1 with snapshot := args.snapshot } args found = .ok rf2 ∧
        rf' = persist { rf2 with
          commitIndex := max rf2.commitIndex args.lastIncludedIndex
          snapshotInstalled := true } := by
  subst h1
  rw [installSnapshot] at h
  generalize handleHigherTerm rf args.term = rf1 at h ⊢
  simp only at h
  split_ifs at h with hold
  · simp only [Except.ok.injEq, Prod.mk.injEq] at h
    exact Or.inl ⟨hold,h.1.symm⟩
  · push Not at hold
    rw [bind_ok] at h
    obtain ⟨found,hf,h⟩ := h
    rw [bind_ok] at h
    obtain ⟨rf2,hrf2,h⟩ := h
    simp only [pure, Except.pure, Except.ok.injEq, Prod.mk.injEq] at h
    exact Or.inr ⟨by omega,by omega,found,rf2,hf,hrf2,h.1.symm⟩

/-- A reply matters to the leader of the request's term only. -/
theorem append_reply_outcome (server : ℕ) (args : AppendEntriesArgs C) (reply : AppendEntriesReply)
    (h : handleAppendReply rf server args reply = .ok rf') :
    rf' = handleHigherTerm rf reply.term ∨
    rf.state = .leader ∧ rf.currentTerm = args.term ∧ reply.term ≤ args.term ∧
      (reply.success = true ∧ server < rf.nextIndex.length ∧ rf' = { rf with
          nextIndex := rf.nextIndex.set server (args.prevLogIndex + 1 + args.entries.length)
          matchIndex := rf.matchIndex.set server
            (args.prevLogIndex + 1 + args.entries.length - 1) } ∨
        reply.success = false ∧
          ∃ next, rf' = { rf with nextIndex := rf.nextIndex.set server next }) := by
  rw [handleAppendReply] at h
  simp only at h
  split_ifs at h with hstop hsucc hshort
  · exact Or.inl (Except.ok.inj h).symm
  all_goals
    push Not at hstop
    obtain ⟨hsame,hle⟩ := higher_term_leader rf reply.term hstop.1
    rw [hsame] at h hstop
    right
    refine ⟨hstop.1,hstop.2,by omega,?_⟩
  · rw [bind_ok] at h
    obtain ⟨next,hn,h⟩ := h
    rw [bind_ok] at h
    obtain ⟨m,hm,h⟩ := h
    obtain ⟨hlt,rfl⟩ := (store_ok _ _ _ _).mp hn
    obtain ⟨-,rfl⟩ := (store_ok _ _ _ _).mp hm
    exact Or.inl ⟨hsucc,hlt,(Except.ok.inj h).symm⟩
  · rw [bind_ok] at h
    obtain ⟨next,hn,h⟩ := h
    obtain ⟨-,rfl⟩ := (store_ok _ _ _ _).mp hn
    exact Or.inr ⟨by simpa using hsucc,_,(Except.ok.inj h).symm⟩
  · rw [bind_ok] at h
    obtain ⟨⟨hasTerm,idx⟩,-,h⟩ := h
    rw [bind_ok] at h
    obtain ⟨next,hn,h⟩ := h
    obtain ⟨-,rfl⟩ := (store_ok _ _ _ _).mp hn
    exact Or.inr ⟨by simpa using hsucc,_,(Except.ok.inj h).symm⟩

theorem append_missing_outcome (term server : ℕ) (request : Option (Request C))
    (h : appendMissingEntries rf term server = .ok request) :
    request = none ∨ rf.state = .leader ∧ rf.currentTerm = term ∧
      ((∃ nextIdx, nextIdx - 1 < rf.lastIncludedIndex ∧ request = some (.installSnapshot {
          term := rf.currentTerm
          leaderId := rf.me
          lastIncludedIndex := rf.lastIncludedIndex
          lastIncludedTerm := rf.lastIncludedTerm
          snapshot := rf.snapshot })) ∨
        ∃ nextIdx prev missing, logEntry rf (nextIdx - 1) = .ok prev ∧
          (lastLogIndex rf ≥ nextIdx ∧ logEntries rf nextIdx = .ok missing ∨
            ¬ lastLogIndex rf ≥ nextIdx ∧ missing = []) ∧
          request = some (.appendEntries {
            term := term
            leaderId := rf.me
            prevLogIndex := nextIdx - 1
            prevLogTerm := prev.term
            entries := missing
            leaderCommitIndex := rf.commitIndex })) := by
  rw [appendMissingEntries] at h
  split_ifs at h with hstop
  · exact Or.inl (Except.ok.inj h).symm
  · push Not at hstop
    refine Or.inr ⟨hstop.1,hstop.2,?_⟩
    rw [bind_ok] at h
    obtain ⟨nextIdx,hn,h⟩ := h
    split_ifs at h with hsnap
    · exact Or.inl ⟨nextIdx,hsnap,(Except.ok.inj h).symm⟩
    · right
      rw [bind_ok] at h
      obtain ⟨⟨prevIdx,prevTerm,missing⟩,hm,h⟩ := h
      rw [missingEntriesForServer, hn, ok_bind, bind_ok] at hm
      obtain ⟨prev,hp,hm⟩ := hm
      refine ⟨nextIdx,prev,missing,hp,?_,?_⟩
      · split_ifs at hm with hge
        · rw [bind_ok] at hm
          obtain ⟨x,hx,hm⟩ := hm
          simp only [pure, Except.pure, Except.ok.injEq, Prod.mk.injEq] at hm
          exact Or.inl ⟨hge,hm.2.2 ▸ hx⟩
        · simp only [pure, Except.pure, ok_bind, Except.ok.injEq, Prod.mk.injEq] at hm
          exact Or.inr ⟨hge,hm.2.2.symm⟩
      · have hfields : prevIdx = nextIdx - 1 ∧ prevTerm = prev.term := by
          split_ifs at hm
          · rw [bind_ok] at hm
            obtain ⟨x,hx,hm⟩ := hm
            simp only [pure, Except.pure, Except.ok.injEq, Prod.mk.injEq] at hm
            exact ⟨hm.1.symm,hm.2.1.symm⟩
          · simp only [pure, Except.pure, ok_bind, Except.ok.injEq, Prod.mk.injEq] at hm
            exact ⟨hm.1.symm,hm.2.1.symm⟩
        obtain ⟨rfl,rfl⟩ := hfields
        exact (Except.ok.inj h).symm

/-- The commit index moves to an index found on a majority, in the current term. -/
theorem advance_commit_outcome (h : advanceCommitIndex rf = .ok rf') :
    rf' = rf ∨ (rf.state = .leader ∨ rf.commitIndex ≠ lastLogIndex rf) ∧
      rf.commitIndex < largestOnMajority rf ∧
      (∃ e, logEntry rf (largestOnMajority rf) = .ok e ∧ e.term = rf.currentTerm) ∧
      rf' = { rf with commitIndex := largestOnMajority rf } := by
  rw [advanceCommitIndex] at h
  simp only at h
  split_ifs at h with hrun hup
  · rw [bind_ok] at h
    obtain ⟨e,he,h⟩ := h
    have h' := (Except.ok.inj h).symm
    split_ifs at h' with ht
    · exact Or.inr ⟨hrun,hup.2,⟨e,he,ht⟩,h'⟩
    · exact Or.inl h'
  · exact Or.inl (Except.ok.inj h).symm
  · exact Or.inl (Except.ok.inj h).symm

theorem apply_outcome (msg : ApplyMsg C) (h : apply rf = .ok (rf', msg)) :
    rf.snapshotInstalled = true ∧
      rf' = { rf with lastApplied := rf.lastIncludedIndex, snapshotInstalled := false } ∧
      msg = {
        snapshotValid := true
        snapshot := rf.snapshot
        snapshotIndex := rf.lastIncludedIndex + 1
        snapshotTerm := rf.lastIncludedTerm } ∨
    rf.snapshotInstalled = false ∧ rf' = { rf with lastApplied := rf.lastApplied + 1 } ∧
      ∃ e, logEntry rf (rf.lastApplied + 1) = .ok e ∧
        msg = {
          commandValid := true
          command := e.command
          commandIndex := rf.lastApplied + 1 + 1 } := by
  rw [RaftHandlers.apply] at h
  split_ifs at h with hs
  · simp only [Except.ok.injEq, Prod.mk.injEq] at h
    exact Or.inl ⟨hs,h.1.symm,h.2.symm⟩
  · rw [bind_ok] at h
    obtain ⟨e,he,h⟩ := h
    simp only [pure, Except.pure, Except.ok.injEq, Prod.mk.injEq] at h
    exact Or.inr ⟨by simpa using hs,h.1.symm,e,he,h.2.symm⟩

theorem snapshot_outcome (index : ℤ) (bytes : Bytes) (h : snapshot rf index bytes = .ok rf') :
    rf' = rf ∨ rf.lastIncludedIndex < index - 1 ∧ index - 1 ≤ rf.commitIndex ∧
      ∃ rf2, trim rf (index - 1) = .ok rf2 ∧ rf' = persist { rf2 with snapshot := bytes } := by
  rw [RaftPeer.snapshot] at h
  split_ifs at h with hold hnew
  · exact Or.inl (Except.ok.inj h).symm
  · rw [bind_ok] at h
    obtain ⟨rf2,ht,h⟩ := h
    exact Or.inr ⟨by omega,by omega,rf2,ht,(Except.ok.inj h).symm⟩

theorem start_outcome (command : Option C) (index : ℤ) (term : ℕ) (isLeader : Bool)
    (h : start rf command = .ok (rf', index, term, isLeader)) :
    isLeader = decide (rf.state = .leader) ∧ (rf.state ≠ .leader → rf' = rf) ∧
      (rf.state = .leader → ∃ matchIndex, rf' = persist { rf with
        log := rf.log ++
          [{ index := lastLogIndex rf + 1, term := rf.currentTerm, command := command }]
        matchIndex := matchIndex }) := by
  rw [start] at h
  split_ifs at h with hl
  · rw [bind_ok] at h
    obtain ⟨rf1,happ,h⟩ := h
    rw [appendEntryLocal, bind_ok] at happ
    obtain ⟨matchIndex,-,happ⟩ := happ
    simp only [pure, Except.pure, Except.ok.injEq, Prod.mk.injEq] at h happ
    refine ⟨by rw [← h.2.2.2]; simp [hl],fun hn => absurd hl hn,fun _ => ⟨matchIndex,?_⟩⟩
    rw [← h.1, happ]
  · simp only [Except.ok.injEq, Prod.mk.injEq] at h
    exact ⟨by rw [← h.2.2.2]; simp [hl],fun _ => h.1.symm,fun hc => absurd hc hl⟩

theorem request_vote_outcome (args : RequestVoteArgs) (reply : RequestVoteReply)
    (h : requestVote rf args = .ok (rf', reply)) :
    rf' = handleHigherTerm rf args.term ∨
      rf' = persist { handleHigherTerm rf args.term with votedFor := some args.candidateId } := by
  rw [requestVote] at h
  generalize handleHigherTerm rf args.term = rf1 at h ⊢
  simp only at h
  split_ifs at h with ht
  · rw [bind_ok] at h
    obtain ⟨⟨rf2,granted⟩,hv,h⟩ := h
    simp only [pure, Except.pure, Except.ok.injEq, Prod.mk.injEq] at h
    obtain ⟨rfl,-⟩ := h
    rw [vote] at hv
    split_ifs at hv
    · rw [bind_ok] at hv
      obtain ⟨v,-,hv⟩ := hv
      split_ifs at hv
      · exact Or.inr (Prod.mk.inj (Except.ok.inj hv)).1.symm
      · exact Or.inl (Prod.mk.inj (Except.ok.inj hv)).1.symm
    · exact Or.inl (Prod.mk.inj (Except.ok.inj hv)).1.symm
  · exact Or.inl (Prod.mk.inj (Except.ok.inj h)).1.symm

theorem election_outcome (args : RequestVoteArgs) (h : election rf = .ok (rf', args)) :
    rf' = { persist { rf with currentTerm := rf.currentTerm + 1, votedFor := some rf.me } with
      state := .candidate } := by
  rw [election, bind_ok] at h
  obtain ⟨term,-,h⟩ := h
  exact (Prod.mk.inj (Except.ok.inj h)).1.symm

theorem become_leader_outcome (h : becomeLeader rf = .ok rf') :
    ∃ nextIndex matchIndex, rf' = { rf with
      state := .leader
      nextIndex := nextIndex
      matchIndex := matchIndex } := by
  rw [becomeLeader, bind_ok] at h
  obtain ⟨matchIndex,-,h⟩ := h
  exact ⟨_,matchIndex,(Except.ok.inj h).symm⟩

/-- Trimming keeps a suffix of the log, based after the entry it read. -/
theorem trim_outcome (index : ℤ) (h : trim rf index = .ok rf') :
    ∃ e log, logEntry rf index = .ok e ∧
      (log = [] ∧ lastLogIndex rf ≤ index ∨
        e.index = index ∧ index < lastLogIndex rf ∧
          sliceFrom rf.log (index - rf.baseIndex + 1) = .ok log) ∧
      rf' = { rf with
        log := log
        lastIncludedIndex := e.index
        lastIncludedTerm := e.term
        baseIndex := e.index + 1 } := by
  rw [trim, bind_ok] at h
  obtain ⟨e,he,h⟩ := h
  split_ifs at h with hlast hidx
  · exact ⟨e,[],he,Or.inl ⟨rfl,hlast⟩,(Except.ok.inj h).symm⟩
  · simp [throw, throwThe, MonadExceptOf.throw, bind, Except.bind] at h
  · rw [bind_ok] at h
    obtain ⟨log,hlog,h⟩ := h
    exact ⟨e,log,he,Or.inr ⟨by simpa using hidx,by omega,hlog⟩,(Except.ok.inj h).symm⟩

end Mitdist.RaftOutcomes
