import Mitdist.RaftSections
import Mitdist.StampedSearch

/-!
# What a rejected request is answered with

The hint of a follower and the search of a leader go down the retained part
of their logs. Both are searches by terms on the whole log, so they read
retained entries only, and a leader's request is what its own log has from
the next index on.
-/

set_option autoImplicit false

namespace Mitdist.RaftHints
open Mitdist.RaftPeer Mitdist.RaftHandlers Mitdist.RaftWindow Mitdist.RaftOutcomes
open Mitdist.StampedLog Mitdist.StampedSearch Mitdist.RaftSections

variable {C : Type}

/-- The hint for a position of a log that is shown from `b` on. -/
def hint (l : List (LogEntry C)) (b p : ℕ) : LogInfo :=
  if p ≤ l.length then
    { term := stampAt l p, index := (runStart l b p:ℤ)-1, len := l.length }
  else { term := 0, index := -1, len := l.length }

/-- The next index that follows from a hint: the end of a shorter log, the
last entry of the hinted term, or the start of that term in the other log. -/
def retry (l : List (LogEntry C)) (b p : ℕ) (info : LogInfo) : ℤ :=
  if (p:ℤ)-1 ≥ info.len then info.len
  else if b < lastAtMost l b info.term p ∧
      stampAt l (lastAtMost l b info.term p) = info.term then
    (lastAtMost l b info.term p:ℤ)-1
  else info.index

section
variable {l : List (LogEntry C)} {b : ℕ} {rf : Raft C} (w : Window l b rf)
include w

theorem first_with_same_term_loop (fuel p : ℕ) (hb : b ≤ p) (hp : p ≤ l.length)
    (hf : p ≤ b+1+fuel) :
    firstWithSameTermLoop rf fuel ((p:ℤ)-1) = .ok ((runStart l b p:ℤ)-1) := by
  induction fuel generalizing p with
  | zero => rw [firstWithSameTermLoop, run_start_base l b p (by omega)]
  | succ fuel ih =>
    rw [firstWithSameTermLoop, w.base]
    by_cases hc : b+2 ≤ p
    · obtain ⟨q,rfl⟩ : ∃ q, p = q+1 := ⟨p-1,by omega⟩
      obtain ⟨e,he,hes⟩ := log_entry_ok w (q+1) hb hp
      obtain ⟨d,hd,hds⟩ := log_entry_ok w q (by omega) (by omega)
      have hq : ((q+1:ℕ):ℤ)-1-1 = (q:ℤ)-1 := by omega
      rw [if_pos (by omega), he, ok_bind, hq, hd, ok_bind, hes, hds, runStart]
      split_ifs with h1 h2 h2
      · exact ih q (by omega) (by omega) (by omega)
      · exact absurd ⟨by omega,h1⟩ h2
      · exact absurd h2.2 h1
      · rfl
    · rw [if_neg (by omega), run_start_base l b p (by omega)]

theorem first_with_same_term (p : ℕ) (hb : b ≤ p) (hp : p ≤ l.length) :
    firstWithSameTerm rf ((p:ℤ)-1) = .ok ((runStart l b p:ℤ)-1) := by
  rw [firstWithSameTerm, w.base]
  exact first_with_same_term_loop w _ p hb hp (by omega)

theorem log_info (p : ℕ) (hb : b ≤ p) : logInfo rf ((p:ℤ)-1) = .ok (hint l b p) := by
  rw [logInfo, hint, last_log_index w]
  by_cases hp : p ≤ l.length
  · obtain ⟨e,he,hes⟩ := log_entry_ok w p hb hp
    rw [if_pos (by omega), if_pos hp, he, ok_bind, first_with_same_term w p hb hp, ok_bind, hes]
    simp [pure, Except.pure]
  · rw [if_neg (by omega), if_neg hp]
    simp

theorem last_entry_loop (t fuel p : ℕ) (hp : p ≤ l.length) (hf : p ≤ b+fuel) :
    lastEntryLoop rf t fuel ((p:ℤ)-1) = .ok ((lastAtMost l b t p:ℤ)-1) := by
  induction fuel generalizing p with
  | zero => rw [lastEntryLoop, last_at_most_base l b t p (by omega)]
  | succ fuel ih =>
    rw [lastEntryLoop, w.base]
    by_cases hc : b+1 ≤ p
    · obtain ⟨q,rfl⟩ : ∃ q, p = q+1 := ⟨p-1,by omega⟩
      obtain ⟨e,he,hes⟩ := log_entry_ok w (q+1) (by omega) hp
      have hq : ((q+1:ℕ):ℤ)-1-1 = (q:ℤ)-1 := by omega
      rw [if_pos (by omega), he, ok_bind, hes, hq, lastAtMost]
      split_ifs with h1 h2 h2
      · exact ih q (by omega) (by omega)
      · exact absurd ⟨by omega,h1⟩ h2
      · exact absurd h2.2 h1
      · rfl
    · rw [if_neg (by omega), last_at_most_base l b t p (by omega)]

/-- The last retained entry that is not of a later term, if it has the term. -/
theorem last_entry (t p : ℕ) (hp : p ≤ l.length) :
    lastEntry rf ((p:ℤ)-1) t =
      .ok (if b < lastAtMost l b t p ∧ stampAt l (lastAtMost l b t p) = t then
        (true, (lastAtMost l b t p:ℤ)-1) else (false, -1)) := by
  have hle := last_at_most_le l b t p
  rw [lastEntry, w.base, last_entry_loop w t _ p hp (by omega), ok_bind]
  by_cases hc : b < lastAtMost l b t p
  · obtain ⟨e,he,hes⟩ := log_entry_ok w _ hc.le (hle.trans hp)
    rw [if_pos (by omega), he, ok_bind, hes]
    split_ifs with h1 h2 h2
    · rfl
    · exact absurd ⟨hc,h1⟩ h2
    · exact absurd h2.2 h1
    · rfl
  · rw [if_neg (by omega), if_neg (fun h => hc h.1)]
    rfl

/-- A leader sends a snapshot to a server that needs what it has discarded,
and to any other server all that its log has from the next index on. -/
theorem append_missing_entries (server p : ℕ) (hl : rf.state = .leader) (hp : p ≤ l.length)
    (hnext : rf.nextIndex[server]? = some (p:ℤ)) :
    appendMissingEntries rf rf.currentTerm server = .ok (some
      (if p < b then .installSnapshot {
          term := rf.currentTerm
          leaderId := rf.me
          lastIncludedIndex := rf.lastIncludedIndex
          lastIncludedTerm := rf.lastIncludedTerm
          snapshot := rf.snapshot }
        else .appendEntries {
          term := rf.currentTerm
          leaderId := rf.me
          prevLogIndex := (p:ℤ)-1
          prevLogTerm := stampAt l p
          entries := l.drop p
          leaderCommitIndex := rf.commitIndex })) := by
  have hload : load rf.nextIndex (server:ℤ) = .ok (p:ℤ) := by
    rw [load_ok]
    exact ⟨by omega,by simpa using hnext⟩
  rw [appendMissingEntries, if_neg (by simp [hl]), hload, ok_bind]
  by_cases hc : p < b
  · rw [if_pos (by rw [w.included]; omega), if_pos hc]
    rfl
  · rw [if_neg (by rw [w.included]; omega), if_neg hc, missingEntriesForServer, hload, ok_bind]
    obtain ⟨e,he,hes⟩ := log_entry_ok w p (by omega) hp
    rw [he, ok_bind, hes, last_log_index w, logEntries, sliceFrom, w.base, w.log]
    have hdrop : (l.drop b).drop ((p:ℤ)-b).toNat = l.drop p := by
      rw [List.drop_drop]
      congr 1
      omega
    by_cases hlt : p < l.length
    · rw [if_pos (by omega), if_pos (by rw [List.length_drop]; omega), hdrop]
      rfl
    · rw [if_neg (by omega), List.drop_eq_nil_of_le (by omega : l.length ≤ p)]
      rfl

/-- Where a leader looks next after a rejected request for a position. -/
theorem append_reply_rejected (server : ℕ) (args : AppendEntriesArgs C)
    (reply : AppendEntriesReply) (p : ℕ) (hl : rf.state = .leader) (ht : rf.currentTerm = args.term)
    (hr : reply.term ≤ args.term) (hf : reply.success = false)
    (hs : server < rf.nextIndex.length) (hprev : args.prevLogIndex = (p:ℤ)-1)
    (hp : p ≤ l.length) :
    handleAppendReply rf server args reply = .ok { rf with
      nextIndex := rf.nextIndex.set server (retry l b p reply.logInfo) } := by
  have hsame : handleHigherTerm rf reply.term = rf := by
    rw [handleHigherTerm, if_neg (by omega)]
  rw [handleAppendReply, hsame, if_neg (by simp [hl, ht]), if_neg (by simp [hf]), hprev, retry]
  have hstore : ∀ x, store rf.nextIndex server x = .ok (rf.nextIndex.set server x) :=
    fun x => if_pos hs
  split_ifs with hlen hfound
  · rw [hstore, ok_bind]
    rfl
  · rw [last_entry w _ p hp, if_pos hfound, ok_bind]
    simp only [if_true, hstore, ok_bind]
    rfl
  · rw [last_entry w _ p hp, if_neg hfound, ok_bind]
    simp only [Bool.false_eq_true, if_false, hstore, ok_bind]
    rfl

end

theorem append_reply_accepted (rf : Raft C) (server : ℕ) (args : AppendEntriesArgs C)
    (reply : AppendEntriesReply) (hl : rf.state = .leader) (ht : rf.currentTerm = args.term)
    (hr : reply.term ≤ args.term) (hy : reply.success = true) (hs : server < rf.nextIndex.length)
    (hm : server < rf.matchIndex.length) :
    handleAppendReply rf server args reply = .ok { rf with
      nextIndex := rf.nextIndex.set server (args.prevLogIndex + 1 + args.entries.length)
      matchIndex := rf.matchIndex.set server
        (args.prevLogIndex + 1 + args.entries.length - 1) } := by
  have hsame : handleHigherTerm rf reply.term = rf := by
    rw [handleHigherTerm, if_neg (by omega)]
  rw [handleAppendReply, hsame, if_neg (by simp [hl, ht]), if_pos hy]
  simp only [store, if_pos hs, if_pos hm, ok_bind]
  rfl

/-- A request whose previous entry is missing is answered with a hint and
changes nothing else. -/
theorem append_entries_rejected (rf rf1 : Raft C) (args : AppendEntriesArgs C)
    (h1 : rf1 = stopCandidacy (handleHigherTerm rf args.term) args.term)
    (l : List (LogEntry C)) (b p : ℕ) (w : Window l b rf1) (hprev : args.prevLogIndex = (p:ℤ)-1)
    (hb : b ≤ p) (hno : ¬ (p ≤ l.length ∧ stampAt l p = args.prevLogTerm)) :
    appendEntries rf args =
      .ok (rf1, { term := rf1.currentTerm, success := false, logInfo := hint l b p }) := by
  rw [appendEntries, ← h1, hprev, if_neg (by rw [w.included]; omega), entry_has_term w p hb,
    ok_bind, decide_eq_false hno, mismatchInfo, if_neg (by simp), hprev, log_info w p hb, ok_bind,
    if_neg (by simp)]
  rfl

theorem append_entries_accepted (rf rf1 rf2 : Raft C) (args : AppendEntriesArgs C)
    (h1 : rf1 = stopCandidacy (handleHigherTerm rf args.term) args.term)
    (l : List (LogEntry C)) (b p : ℕ) (w : Window l b rf1) (hprev : args.prevLogIndex = (p:ℤ)-1)
    (hb : b ≤ p) (hyes : p ≤ l.length ∧ stampAt l p = args.prevLogTerm)
    (hnew : ¬ args.term < rf1.currentTerm)
    (h2 : appendEntriesLocal rf1 args.entries = .ok rf2) :
    appendEntries rf args = .ok (followCommit rf2 args.leaderCommitIndex,
      { term := rf1.currentTerm, success := true }) := by
  rw [appendEntries, ← h1, hprev, if_neg (by rw [w.included]; omega), entry_has_term w p hb,
    ok_bind, decide_eq_true hyes, mismatchInfo, if_pos rfl, ok_bind, if_pos ⟨rfl,hnew⟩, h2]
  rfl

theorem hint_bounds (l : List (LogEntry C)) (b p : ℕ) (hp : 0 < p) :
    0 ≤ (hint l b p).len ∧
      ((p:ℤ)-1 < (hint l b p).len → 0 ≤ (hint l b p).index ∧ (hint l b p).index ≤ (p:ℤ)-1) := by
  have hle := run_start_le l b p
  have hpos := run_start_pos l b p hp
  unfold hint
  split_ifs with h
  · exact ⟨Int.natCast_nonneg _,fun _ => ⟨by simp only; omega,by simp only; omega⟩⟩
  · exact ⟨Int.natCast_nonneg _,fun hc => by simp only at hc; omega⟩

theorem retry_bounds (l : List (LogEntry C)) (b p : ℕ) (info : LogInfo) (hlen : 0 ≤ info.len)
    (hindex : (p:ℤ)-1 < info.len → 0 ≤ info.index ∧ info.index ≤ (p:ℤ)-1) :
    0 ≤ retry l b p info ∧ retry l b p info ≤ (p:ℤ)-1 := by
  have hle := last_at_most_le l b info.term p
  unfold retry
  split_ifs <;> omega

theorem retry_backoff (l f : List (LogEntry C)) (x : ℕ) (hno : ¬ Matches l f x) :
    retry l 0 x (hint f 0 x) = (backoff l f x : ℤ) := by
  have hpos : 0 < x := by
    by_contra hc
    obtain rfl : x = 0 := by omega
    exact hno (matches_zero l f)
  have hrun := run_start_pos f 0 x hpos
  rw [backoff, hint]
  by_cases hx : x ≤ f.length
  · rw [if_pos hx, if_neg (by omega), retry]
    simp only
    rw [if_neg (by omega)]
    split_ifs <;> omega
  · rw [if_neg hx, if_pos (by omega), retry]
    exact if_pos (by simp only; omega)

theorem prepared_window (l : List (LogEntry C)) (b : ℕ) (rf : Raft C) (w : Window l b rf) (t : ℕ) :
    Window l b (stopCandidacy (handleHigherTerm rf t) t) := by
  have hraise : Window l b (handleHigherTerm rf t) := by
    rw [handleHigherTerm]
    split_ifs
    · exact window_of l b w rfl rfl rfl rfl
    · exact w
  rw [stopCandidacy]
  split_ifs
  · exact window_of l b hraise rfl rfl rfl rfl
  · exact hraise

end Mitdist.RaftHints
