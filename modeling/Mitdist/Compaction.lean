import Mitdist.RaftIndices
import Mathlib.Algebra.Order.Group.Int

/-!
# Compaction is transparent to the handlers

A server that has trimmed its log and one that has not differ in where the
retained part starts. They read the same terms from the trim point on, so that
they answer votes and requests alike, and what they keep afterwards differs by
the same trim. Only the hint of a rejected request is cut off where the trimmed
log starts. Trimming does not persist, so the two persisters hold what each
server saved itself.
-/

set_option autoImplicit false

namespace Mitdist.Compaction
open Mitdist.RaftPeer Mitdist.RaftHandlers Mitdist.RaftOutcomes Mitdist.RaftIndices

variable {C : Type} {k : ℤ} {rf r S R : Raft C}

/-- The second server is the first one with its log trimmed up to `k`, apart
from what the persister holds. -/
structure Compacts (k : ℤ) (rf r : Raft C) : Prop where
  ordered : Ordered rf
  low : rf.lastIncludedIndex < k
  high : k ≤ lastLogIndex rf
  included : r.lastIncludedIndex = k
  base : r.baseIndex = k+1
  log : r.log = rf.log.drop (k - rf.lastIncludedIndex).toNat
  includedTerm : ∃ e, logEntry rf k = .ok e ∧ e.term = r.lastIncludedTerm
  me : r.me = rf.me
  peersCount : r.peersCount = rf.peersCount
  currentTerm : r.currentTerm = rf.currentTerm
  votedFor : r.votedFor = rf.votedFor
  state : r.state = rf.state
  commitIndex : r.commitIndex = rf.commitIndex
  lastApplied : r.lastApplied = rf.lastApplied
  nextIndex : r.nextIndex = rf.nextIndex
  matchIndex : r.matchIndex = rf.matchIndex
  snapshot : r.snapshot = rf.snapshot
  snapshotInstalled : r.snapshotInstalled = rf.snapshotInstalled

theorem log_entry_exists (ho : Ordered rf) (x : ℤ) (hlow : rf.lastIncludedIndex ≤ x)
    (hhigh : x ≤ lastLogIndex rf) : ∃ e, logEntry rf x = .ok e := by
  have hb := ho.base
  rw [lastLogIndex] at hhigh
  by_cases hx : x = rf.lastIncludedIndex
  · exact ⟨_,if_pos hx⟩
  · have hlt : (x - rf.baseIndex).toNat < rf.log.length := by omega
    refine ⟨rf.log[(x - rf.baseIndex).toNat],?_⟩
    rw [logEntry, if_neg hx, load_ok]
    exact ⟨by omega,List.getElem?_eq_getElem hlt⟩

theorem trim_beyond (ho : Ordered rf) (j : ℤ) (hlow : rf.lastIncludedIndex < j)
    (hhigh : j ≤ lastLogIndex rf) (e : LogEntry C) (he : logEntry rf j = .ok e) :
    trim rf j = .ok { rf with
      log := rf.log.drop (j - rf.lastIncludedIndex).toNat
      lastIncludedIndex := j
      lastIncludedTerm := e.term
      baseIndex := j+1 } := by
  have hb := ho.base
  have hidx := entry_index ho j e he
  have hlast : lastLogIndex rf = rf.lastIncludedIndex + rf.log.length := by
    rw [lastLogIndex]
    omega
  rw [trim, he, ok_bind, hidx]
  by_cases hend : j ≥ lastLogIndex rf
  · rw [if_pos hend, List.drop_eq_nil_of_le (by omega)]
    rfl
  · have hcut : j - rf.baseIndex + 1 = j - rf.lastIncludedIndex := by omega
    rw [if_neg hend, if_neg (by simp), hcut, sliceFrom, if_pos (by omega)]
    rfl

theorem compacts_trim (h : Compacts k rf r) :
    trim rf k = .ok { r with persister := rf.persister } := by
  obtain ⟨e,he,ht⟩ := h.includedTerm
  rw [trim_beyond h.ordered k h.low h.high e he]
  cases r
  cases rf
  simp only [Except.ok.injEq, Raft.mk.injEq]
  exact ⟨trivial,h.me.symm,h.peersCount.symm,h.currentTerm.symm,h.votedFor.symm,h.log.symm,
    h.included.symm,ht,h.base.symm,h.state.symm,h.commitIndex.symm,h.lastApplied.symm,
    h.nextIndex.symm,h.matchIndex.symm,h.snapshot.symm,h.snapshotInstalled.symm⟩

theorem trim_compacts (ho : Ordered rf) (hlow : rf.lastIncludedIndex < k)
    (hhigh : k ≤ lastLogIndex rf) :
    ∃ r, trim rf k = .ok r ∧ r.persister = rf.persister ∧ Compacts k rf r := by
  obtain ⟨e,he⟩ := log_entry_exists ho k hlow.le hhigh
  refine ⟨_,trim_beyond ho k hlow hhigh e he,rfl,?_⟩
  exact ⟨ho,hlow,hhigh,rfl,rfl,rfl,⟨e,he,rfl⟩,rfl,rfl,rfl,rfl,rfl,rfl,rfl,rfl,rfl,rfl,rfl⟩

theorem first_with_same_term_returns (ho : Ordered rf) (fuel : ℕ) (x : ℤ)
    (hlow : rf.lastIncludedIndex ≤ x) (hlast : x ≤ lastLogIndex rf) :
    ∃ i, firstWithSameTermLoop rf fuel x = .ok i ∧ i ≤ x := by
  have hb := ho.base
  induction fuel generalizing x with
  | zero => exact ⟨x,rfl,le_rfl⟩
  | succ fuel ih =>
    rw [firstWithSameTermLoop]
    split_ifs with hx
    · obtain ⟨e,he⟩ := log_entry_exists ho x hlow hlast
      obtain ⟨d,hd⟩ := log_entry_exists ho (x-1) (by omega) (by omega)
      rw [he, ok_bind, hd, ok_bind]
      split_ifs
      · obtain ⟨i,hi,hle⟩ := ih (x-1) (by omega) (by omega)
        exact ⟨i,hi,by omega⟩
      · exact ⟨x,rfl,le_rfl⟩
    · exact ⟨x,rfl,le_rfl⟩

section
variable (h : Compacts k rf r)
include h

theorem last_log_index_same : lastLogIndex r = lastLogIndex rf := by
  have hb := h.ordered.base
  have hlow := h.low
  have hhigh := h.high
  rw [lastLogIndex] at hhigh
  rw [lastLogIndex, lastLogIndex, h.base, h.log, List.length_drop]
  omega

theorem log_entry_same (x : ℤ) (hx : k < x) : logEntry r x = logEntry rf x := by
  have hb := h.ordered.base
  have hlow := h.low
  have hcut : (k - rf.lastIncludedIndex).toNat + (x - (k+1)).toNat = (x - rf.baseIndex).toNat := by
    omega
  rw [logEntry, logEntry, if_neg (by rw [h.included]; omega), if_neg (by omega), h.base, h.log,
    load, load, if_neg (by omega), if_neg (by omega), List.getElem?_drop, hcut]

theorem log_entry_terms (x : ℤ) (hx : k ≤ x) (hlast : x ≤ lastLogIndex rf) :
    ∃ d e, logEntry rf x = .ok d ∧ logEntry r x = .ok e ∧ e.term = d.term := by
  have hlow := h.low
  rcases eq_or_lt_of_le hx with rfl | hlt
  · obtain ⟨e,he,ht⟩ := h.includedTerm
    exact ⟨e,_,he,if_pos h.included.symm,ht.symm⟩
  · obtain ⟨e,he⟩ := log_entry_exists h.ordered x (by omega) hlast
    exact ⟨e,e,he,(log_entry_same h x hlt).trans he,rfl⟩

theorem entry_has_term_same (x : ℤ) (hx : k ≤ x) (t : ℕ) :
    ∃ b, entryHasTerm rf x t = .ok b ∧ entryHasTerm r x t = .ok b ∧
      (b = true → x ≤ lastLogIndex rf) := by
  have hlow := h.low
  have hlast := last_log_index_same h
  rw [entryHasTerm, entryHasTerm, if_neg (by omega : x ≠ rf.lastIncludedIndex), h.included, hlast]
  by_cases hend : x > lastLogIndex rf
  · have hhigh := h.high
    rw [if_pos hend, if_neg (by omega), if_pos hend]
    exact ⟨false,rfl,rfl,by simp⟩
  · obtain ⟨d,e,hd,he,ht⟩ := log_entry_terms h x hx (by omega)
    rw [if_neg hend, if_neg hend, hd, he, ok_bind, ok_bind]
    refine ⟨decide (d.term = t),rfl,?_,fun _ => by omega⟩
    by_cases hk : x = k
    · subst hk
      rw [logEntry, if_pos h.included.symm] at he
      rw [if_pos rfl, ← ht, ← Except.ok.inj he]
      simp only [eq_comm]
    · rw [if_neg hk, ht]
      rfl

theorem last_log_term_same : ∃ t, lastLogTerm rf = .ok t ∧ lastLogTerm r = .ok t := by
  obtain ⟨d,e,hd,he,ht⟩ := log_entry_terms h (lastLogIndex rf) h.high le_rfl
  refine ⟨d.term,?_,?_⟩
  · rw [lastLogTerm, hd]
    rfl
  · rw [lastLogTerm, last_log_index_same h, he, ok_bind, ht]
    rfl

/-- Trimming twice is trimming once, further. -/
theorem trim_again (hp : r.persister = rf.persister) (j : ℤ) (hj : k < j)
    (hhigh : j ≤ lastLogIndex rf) : trim r j = trim rf j := by
  have hlow := h.low
  have hordered := (trim_ordered h.ordered k (compacts_trim h)).1
  have ho : Ordered r := ordered_of hordered rfl rfl rfl
  obtain ⟨e,he⟩ := log_entry_exists h.ordered j (by omega) hhigh
  rw [trim_beyond h.ordered j (by omega) hhigh e he,
    trim_beyond ho j (by rw [h.included]; exact hj) (by rw [last_log_index_same h]; exact hhigh) e
      ((log_entry_same h j hj).trans he)]
  have hcut : (k - rf.lastIncludedIndex).toNat + (j - k).toNat =
      (j - rf.lastIncludedIndex).toNat := by omega
  rw [h.log, h.included, List.drop_drop, hcut, hp, h.me, h.peersCount, h.currentTerm, h.votedFor,
    h.state, h.commitIndex, h.lastApplied, h.nextIndex, h.matchIndex, h.snapshot,
    h.snapshotInstalled]

/-- The search for the start of a term stops at the first retained entry. -/
theorem first_with_same_term_clipped (fuel : ℕ) (x : ℤ) (hx : k < x)
    (hlast : x ≤ lastLogIndex rf) (hf : x ≤ r.baseIndex + fuel) :
    ∃ i, firstWithSameTermLoop rf (x - rf.baseIndex).toNat x = .ok i ∧ i ≤ x ∧
      firstWithSameTermLoop r fuel x = .ok (max i (k+1)) := by
  have hlow := h.low
  have hb := h.ordered.base
  have hbase := h.base
  induction fuel generalizing x with
  | zero =>
    obtain ⟨i,hi,hle⟩ := first_with_same_term_returns h.ordered (x - rf.baseIndex).toNat x
      (by omega) hlast
    refine ⟨i,hi,hle,?_⟩
    rw [firstWithSameTermLoop, max_eq_right (by omega)]
    congr 1
    omega
  | succ fuel ih =>
    by_cases hfirst : x = k+1
    · obtain ⟨i,hi,hle⟩ := first_with_same_term_returns h.ordered (x - rf.baseIndex).toNat x
        (by omega) hlast
      refine ⟨i,hi,hle,?_⟩
      rw [firstWithSameTermLoop, if_neg (by omega), max_eq_right (by omega), hfirst]
    · have hfuel : (x - rf.baseIndex).toNat = (x - 1 - rf.baseIndex).toNat + 1 := by omega
      obtain ⟨e,he⟩ := log_entry_exists h.ordered x (by omega) hlast
      obtain ⟨d,hd⟩ := log_entry_exists h.ordered (x-1) (by omega) (by omega)
      rw [hfuel, firstWithSameTermLoop, firstWithSameTermLoop, if_pos (by omega), if_pos (by omega),
        log_entry_same h x hx, log_entry_same h (x-1) (by omega)]
      simp only [he, hd, ok_bind]
      split_ifs
      · obtain ⟨i,hi,hle,hclip⟩ := ih (x-1) (by omega) (by omega) (by omega)
        exact ⟨i,hi,by omega,hclip⟩
      · exact ⟨x,rfl,le_rfl,by rw [max_eq_left (by omega)]⟩

/-- The hint for an index: the same, but for where the term starts. -/
theorem log_info_clipped (x : ℤ) (hx : k ≤ x) :
    ∃ i j, logInfo rf x = .ok i ∧ logInfo r x = .ok j ∧ j.term = i.term ∧ j.len = i.len ∧
      (j.index = i.index ∨ j.index = max i.index (if x = k then k else k+1)) := by
  have hlow := h.low
  have hb := h.ordered.base
  have hbase := h.base
  rw [logInfo, logInfo, last_log_index_same h]
  split_ifs with hlast hk
  · subst hk
    obtain ⟨d,e,hd,he,ht⟩ := log_entry_terms h x le_rfl hlast
    obtain ⟨i,hi,hle⟩ := first_with_same_term_returns h.ordered (x - rf.baseIndex).toNat x
      (by omega) hlast
    have hr : firstWithSameTerm r x = .ok x := by
      rw [firstWithSameTerm]
      cases (x - r.baseIndex).toNat with
      | zero => rfl
      | succ fuel => rw [firstWithSameTermLoop, if_neg (by omega)]
    rw [hd, he, ok_bind, ok_bind, firstWithSameTerm, hi, hr, ok_bind, ok_bind]
    exact ⟨_,_,rfl,rfl,ht,rfl,Or.inr (max_eq_right hle).symm⟩
  · obtain ⟨d,e,hd,he,ht⟩ := log_entry_terms h x hx hlast
    obtain ⟨i,hi,hle,hclip⟩ := first_with_same_term_clipped h (x - r.baseIndex).toNat x (by omega)
      hlast (by omega)
    rw [hd, he, ok_bind, ok_bind, firstWithSameTerm, firstWithSameTerm, hi, hclip, ok_bind, ok_bind]
    exact ⟨_,_,rfl,rfl,ht,rfl,Or.inr rfl⟩
  · exact ⟨_,_,rfl,rfl,rfl,rfl,Or.inl rfl⟩
  · exact ⟨_,_,rfl,rfl,rfl,rfl,Or.inl rfl⟩

/-- Replacing both logs from the same index beyond the trim point on. -/
theorem splice_compacts (start : ℤ) (hs : k < start) (hlast : start ≤ lastLogIndex rf + 1)
    (entries : List (LogEntry C)) (ho : Ordered { rf with
      log := rf.log.take (start - rf.baseIndex).toNat ++ entries }) :
    Compacts k { rf with log := rf.log.take (start - rf.baseIndex).toNat ++ entries }
      { r with log := r.log.take (start - r.baseIndex).toNat ++ entries } := by
  have hlow := h.low
  have hb := h.ordered.base
  rw [lastLogIndex] at hlast
  have hlen : (rf.log.take (start - rf.baseIndex).toNat).length = (start - rf.baseIndex).toNat := by
    rw [List.length_take]
    omega
  obtain ⟨e,he,ht⟩ := h.includedTerm
  refine { h with
    ordered := ho
    high := ?_
    log := ?_
    includedTerm := ⟨e,?_,ht⟩ }
  · simp only [lastLogIndex, List.length_append, hlen]
    omega
  · have hcut : (start - r.baseIndex).toNat = (start - rf.baseIndex).toNat -
        (k - rf.lastIncludedIndex).toNat := by
      rw [h.base]
      omega
    show r.log.take _ ++ entries =
      (rf.log.take _ ++ entries).drop (k - rf.lastIncludedIndex).toNat
    rw [List.drop_append_of_le_length (by omega), List.drop_take, h.log, hcut]
  · rw [logEntry, if_neg (by omega), load_ok] at he
    rw [logEntry, if_neg (by simp only; omega), load_ok]
    refine ⟨he.1,?_⟩
    show (rf.log.take _ ++ entries)[(k - rf.baseIndex).toNat]? = some e
    rw [List.getElem?_append_left (by omega), List.getElem?_take, if_pos (by omega)]
    exact he.2

theorem append_loop_compacts (entries : List (LogEntry C)) (start : ℤ) (hs : k < start)
    (hlast : start ≤ lastLogIndex rf + 1) (hc : Consecutive start entries) :
    ∃ rf' r', appendLoop rf entries = .ok rf' ∧ appendLoop r entries = .ok r' ∧
      Compacts k rf' r' := by
  induction entries generalizing start with
  | nil => exact ⟨rf,r,rfl,rfl,h⟩
  | cons e entries ih =>
    obtain ⟨he,hrest⟩ := (consecutive_cons start e entries).mp hc
    obtain ⟨b,hb,hb',hin⟩ := entry_has_term_same h e.index (by omega) e.term
    cases b with
    | true =>
      rw [appendLoop, appendLoop, hb, hb', ok_bind, ok_bind]
      exact ih (start+1) (by omega) (by have := hin rfl; omega) hrest
    | false =>
      have hlow := h.low
      have hbase := h.ordered.base
      have hsame := last_log_index_same h
      have hbound : 0 ≤ start - rf.baseIndex ∧ start - rf.baseIndex ≤ rf.log.length := by
        rw [lastLogIndex] at hlast
        omega
      have hbound' : 0 ≤ start - r.baseIndex ∧ start - r.baseIndex ≤ r.log.length := by
        rw [← hsame, lastLogIndex] at hlast
        have := h.base
        omega
      have hloop : appendLoop rf (e::entries) = .ok { rf with
          log := rf.log.take (start - rf.baseIndex).toNat ++ e::entries } := by
        rw [appendLoop, hb, ok_bind, if_neg (by simp), logEntriesTo, sliceTo, he, if_pos hbound]
        rfl
      have hloop' : appendLoop r (e::entries) = .ok { r with
          log := r.log.take (start - r.baseIndex).toNat ++ e::entries } := by
        rw [appendLoop, hb', ok_bind, if_neg (by simp), logEntriesTo, sliceTo, he, if_pos hbound']
        rfl
      exact ⟨_,_,hloop,hloop',splice_compacts h start hs hlast _
        (append_loop_ordered h.ordered _ start hc hloop)⟩

end

/-- Neither server has written to its persister, or both have saved what they
hold now. -/
def Written (S R rf r : Raft C) : Prop :=
  rf.persister = S.persister ∧ r.persister = R.persister ∨ persist rf = rf ∧ persist r = r

/-- The two servers, some steps after they were `S` and `R`. -/
structure Tracks (k : ℤ) (S R rf r : Raft C) : Prop where
  compacts : Compacts k rf r
  written : Written S R rf r

theorem persist_tracks (h : Compacts k rf r) : Tracks k S R (persist rf) (persist r) :=
  ⟨{ h with ordered := ordered_of h.ordered rfl rfl rfl },Or.inr ⟨rfl,rfl⟩⟩

section
variable (h : Tracks k S R rf r)
include h

theorem higher_term_tracks (t : ℕ) :
    Tracks k S R (handleHigherTerm rf t) (handleHigherTerm r t) := by
  have hterm := h.compacts.currentTerm
  rw [handleHigherTerm, handleHigherTerm, hterm]
  split_ifs with ht
  · apply persist_tracks
    exact { h.compacts with
      ordered := ordered_of h.compacts.ordered rfl rfl rfl
      currentTerm := rfl
      votedFor := rfl
      state := rfl }
  · exact h

theorem state_tracks (x : State) : Tracks k S R { rf with state := x } { r with state := x } := by
  constructor
  · exact { h.compacts with
      ordered := ordered_of h.compacts.ordered rfl rfl rfl
      state := rfl }
  · rcases h.written with hw | ⟨hw,hw'⟩
    · exact Or.inl hw
    · exact Or.inr ⟨congrArg (fun p : Raft C => { p with state := x }) hw,
        congrArg (fun p : Raft C => { p with state := x }) hw'⟩

theorem commit_index_tracks (x : ℤ) :
    Tracks k S R { rf with commitIndex := x } { r with commitIndex := x } := by
  constructor
  · exact { h.compacts with
      ordered := ordered_of h.compacts.ordered rfl rfl rfl
      commitIndex := rfl }
  · rcases h.written with hw | ⟨hw,hw'⟩
    · exact Or.inl hw
    · exact Or.inr ⟨congrArg (fun p : Raft C => { p with commitIndex := x }) hw,
        congrArg (fun p : Raft C => { p with commitIndex := x }) hw'⟩

theorem stop_candidacy_tracks (t : ℕ) :
    Tracks k S R (stopCandidacy rf t) (stopCandidacy r t) := by
  have hstate := h.compacts.state
  have hterm := h.compacts.currentTerm
  by_cases hc : rf.state = .candidate ∧ rf.currentTerm = t
  · rw [stopCandidacy, stopCandidacy, if_pos hc, if_pos (by rw [hstate, hterm]; exact hc)]
    exact state_tracks h .follower
  · rw [stopCandidacy, stopCandidacy, if_neg hc, if_neg (by rw [hstate, hterm]; exact hc)]
    exact h

theorem follow_commit_tracks (i : ℤ) : Tracks k S R (followCommit rf i) (followCommit r i) := by
  have hcommit := h.compacts.commitIndex
  rw [followCommit, followCommit, last_log_index_same h.compacts]
  by_cases hc : i > rf.commitIndex
  · rw [if_pos hc, if_pos (by rw [hcommit]; exact hc)]
    exact commit_index_tracks h _
  · rw [if_neg hc, if_neg (by rw [hcommit]; exact hc)]
    exact h

theorem append_local_tracks (entries : List (LogEntry C)) (start : ℤ) (hs : k < start)
    (hlast : start ≤ lastLogIndex rf + 1) (hc : Consecutive start entries) :
    ∃ rf' r', appendEntriesLocal rf entries = .ok rf' ∧ appendEntriesLocal r entries = .ok r' ∧
      Tracks k S R rf' r' := by
  obtain ⟨rf',r',hrf,hr,h'⟩ := append_loop_compacts h.compacts entries start hs hlast hc
  rw [appendEntriesLocal, appendEntriesLocal, hrf, hr]
  split_ifs
  · exact ⟨rf,r,rfl,rfl,h⟩
  · exact ⟨_,_,rfl,rfl,persist_tracks h'⟩

theorem vote_tracks (args : RequestVoteArgs) : ∃ rf' r' granted, vote rf args = .ok (rf', granted) ∧
    vote r args = .ok (r', granted) ∧ Tracks k S R rf' r' := by
  obtain ⟨t,ht,ht'⟩ := last_log_term_same h.compacts
  rw [vote, vote, h.compacts.votedFor]
  simp only [updatedLog, ht, ht', last_log_index_same h.compacts, ok_bind]
  split_ifs with hfree
  · by_cases hup : args.lastLogTerm > t ∨ args.lastLogTerm = t ∧ args.lastLogIndex ≥ lastLogIndex rf
    · simp only [hup, pure, Except.pure, ok_bind, decide_true, if_true]
      refine ⟨_,_,true,rfl,rfl,persist_tracks ?_⟩
      exact { h.compacts with
        ordered := ordered_of h.compacts.ordered rfl rfl rfl
        votedFor := rfl }
    · simp only [hup, pure, Except.pure, ok_bind, decide_false, Bool.false_eq_true, if_false]
      exact ⟨rf,r,false,rfl,rfl,h⟩
  · exact ⟨rf,r,false,rfl,rfl,h⟩

theorem request_vote_tracks (args : RequestVoteArgs) : ∃ rf' r' reply,
    requestVote rf args = .ok (rf', reply) ∧ requestVote r args = .ok (r', reply) ∧
    Tracks k S R rf' r' := by
  have h1 := higher_term_tracks h args.term
  rw [requestVote, requestVote]
  simp only [h1.compacts.currentTerm]
  obtain ⟨rf',r',granted,hv,hv',h'⟩ := vote_tracks h1 args
  split_ifs
  · simp only [hv, hv', ok_bind]
    exact ⟨rf',r',_,rfl,rfl,h'⟩
  · exact ⟨_,_,_,rfl,rfl,h1⟩

/-- A request beyond the trim point: it is accepted or rejected by both, and
the hint of a rejection is cut off where the trimmed log starts. -/
theorem append_entries_tracks (args : AppendEntriesArgs C) (hp : k ≤ args.prevLogIndex)
    (hc : Consecutive (args.prevLogIndex + 1) args.entries) :
    ∃ rf' r' reply reply', appendEntries rf args = .ok (rf', reply) ∧
      appendEntries r args = .ok (r', reply') ∧ Tracks k S R rf' r' ∧
      reply'.term = reply.term ∧ reply'.success = reply.success ∧
      reply'.skipForwardTo = reply.skipForwardTo ∧
      reply'.logInfo.term = reply.logInfo.term ∧ reply'.logInfo.len = reply.logInfo.len ∧
      (reply'.logInfo.index = reply.logInfo.index ∨ reply'.logInfo.index =
        max reply.logInfo.index (if args.prevLogIndex = k then k else k+1)) := by
  have h1 := stop_candidacy_tracks (higher_term_tracks h args.term) args.term
  rw [appendEntries, appendEntries]
  generalize stopCandidacy (handleHigherTerm rf args.term) args.term = rf1 at h1
  generalize stopCandidacy (handleHigherTerm r args.term) args.term = r1 at h1
  have hlow := h1.compacts.low
  have hterm := h1.compacts.currentTerm
  have hincluded := h1.compacts.included
  obtain ⟨b,hb,hb',hin⟩ := entry_has_term_same h1.compacts args.prevLogIndex hp args.prevLogTerm
  rw [if_neg (by omega), if_neg (by omega), hb, hb', ok_bind, ok_bind, mismatchInfo, mismatchInfo,
    hterm]
  cases b with
  | true =>
    rw [if_pos rfl, if_pos rfl, ok_bind, ok_bind]
    by_cases hnew : ¬ args.term < rf1.currentTerm
    · obtain ⟨rf2,r2,hrf2,hr2,h2⟩ := append_local_tracks h1 args.entries (args.prevLogIndex + 1)
        (by omega) (by have := hin rfl; omega) hc
      rw [if_pos ⟨rfl,hnew⟩, if_pos ⟨rfl,hnew⟩, hrf2, hr2, ok_bind, ok_bind]
      exact ⟨_,_,_,_,rfl,rfl,follow_commit_tracks h2 _,rfl,rfl,rfl,rfl,rfl,Or.inl rfl⟩
    · rw [if_neg (fun hy => hnew hy.2), if_neg (fun hy => hnew hy.2)]
      exact ⟨_,_,_,_,rfl,rfl,h1,rfl,rfl,rfl,rfl,rfl,Or.inl rfl⟩
  | false =>
    obtain ⟨i,j,hi,hj,ht,hlen,hclip⟩ := log_info_clipped h1.compacts args.prevLogIndex hp
    rw [if_neg (by simp), if_neg (by simp), hi, hj, ok_bind, ok_bind, if_neg (by simp),
      if_neg (by simp)]
    exact ⟨_,_,_,_,rfl,rfl,h1,rfl,rfl,rfl,ht,hlen,hclip⟩

end

/-- The state after a handler is trimmed to the other one's, and the two
persisters were left alone or written by both. -/
def SameAfterTrim (k : ℤ) (S R S' R' : Raft C) : Prop :=
  trim S' k = .ok { R' with persister := S'.persister } ∧ Written S R S' R'

theorem tracks_trim (h : Tracks k S R rf r) : SameAfterTrim k S R rf r :=
  ⟨compacts_trim h.compacts,h.written⟩

/-- A server whose log is consecutive can be trimmed at any index that it has
committed and not discarded. The trimmed server answers every vote as before.
It accepts and rejects the same requests from the trim point on, with a hint
that is cut off where the trimmed log starts. Trimming commutes with both
handlers and with trimming further. -/
theorem compaction_transparent (S : Raft C) (k : ℤ) (ho : Ordered S)
    (hcommit : S.commitIndex ≤ lastLogIndex S) (hlow : S.lastIncludedIndex < k)
    (hk : k ≤ S.commitIndex) :
    ∃ R, trim S k = .ok R ∧
    (∀ args, ∃ S' R' reply, requestVote S args = .ok (S', reply) ∧
      requestVote R args = .ok (R', reply) ∧ SameAfterTrim k S R S' R') ∧
    (∀ args, k ≤ args.prevLogIndex → Consecutive (args.prevLogIndex + 1) args.entries →
      ∃ S' R' reply reply', appendEntries S args = .ok (S', reply) ∧
        appendEntries R args = .ok (R', reply') ∧ SameAfterTrim k S R S' R' ∧
        reply'.term = reply.term ∧ reply'.success = reply.success ∧
        reply'.skipForwardTo = reply.skipForwardTo ∧
        reply'.logInfo.term = reply.logInfo.term ∧ reply'.logInfo.len = reply.logInfo.len ∧
        (reply'.logInfo.index = reply.logInfo.index ∨ reply'.logInfo.index =
          max reply.logInfo.index (if args.prevLogIndex = k then k else k+1))) ∧
    ∀ j, k < j → j ≤ S.commitIndex → trim R j = trim S j := by
  obtain ⟨R,hR,hpersister,hcompacts⟩ := trim_compacts ho hlow (hk.trans hcommit)
  have h : Tracks k S R S R := ⟨hcompacts,Or.inl ⟨rfl,rfl⟩⟩
  refine ⟨R,hR,fun args => ?_,fun args hp hc => ?_,fun j hj hjc => ?_⟩
  · obtain ⟨S',R',reply,hs,hr,h'⟩ := request_vote_tracks h args
    exact ⟨S',R',reply,hs,hr,tracks_trim h'⟩
  · obtain ⟨S',R',reply,reply',hs,hr,h',hrest⟩ := append_entries_tracks h args hp hc
    exact ⟨S',R',reply,reply',hs,hr,tracks_trim h',hrest⟩
  · exact trim_again hcompacts hpersister j hj (hjc.trans hcommit)

/-- Three entries of one term, two of them committed. -/
def threeEntries : Raft ℕ :=
  { make 3 0 {} with
    currentTerm := 1
    log := [⟨0,1,some 7⟩,⟨1,1,some 8⟩,⟨2,1,some 9⟩]
    commitIndex := 1 }

theorem three_entries_ordered : Ordered threeEntries := by
  have hc : Consecutive 0 threeEntries.log := by decide
  constructor
  · rfl
  · exact hc

/-- A request that no log matches: the whole log hints at index 0, and the log
that was trimmed there at its first retained index. -/
def mismatched : AppendEntriesArgs ℕ where
  term := 2
  leaderId := 1
  prevLogIndex := 2
  prevLogTerm := 2
  entries := [⟨3,2,some 5⟩]
  leaderCommitIndex := 1

theorem compaction_transparent_three_entries : ∃ R, trim threeEntries 0 = .ok R ∧
    trim R 1 = trim threeEntries 1 ∧
    ∃ S' R' reply reply', appendEntries threeEntries mismatched = .ok (S', reply) ∧
      appendEntries R mismatched = .ok (R', reply') ∧ SameAfterTrim 0 threeEntries R S' R' ∧
      reply.logInfo.index = 0 ∧ reply'.logInfo.index = 1 := by
  obtain ⟨R,hR,-,happend,htrim⟩ := compaction_transparent threeEntries 0 three_entries_ordered
    (by decide) (by decide) (by decide)
  obtain ⟨S',R',reply,reply',hs,hr,hsame,-⟩ := happend mismatched (by decide) (by decide)
  have hwhole : (appendEntries threeEntries mismatched).map (·.2.logInfo.index) = .ok 0 := by
    decide +kernel
  have htrimmed : (trim threeEntries 0 >>= fun R => appendEntries R mismatched).map
      (·.2.logInfo.index) = .ok 1 := by decide +kernel
  rw [hs] at hwhole
  rw [hR, ok_bind, hr] at htrimmed
  exact ⟨R,hR,htrim 1 (by decide) (by decide),S',R',reply,reply',hs,hr,hsame,
    Except.ok.inj hwhole,Except.ok.inj htrimmed⟩

end Mitdist.Compaction
