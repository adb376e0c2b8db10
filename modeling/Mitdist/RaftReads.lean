import Mitdist.RaftHints
import Mitdist.RaftReplication
import Mitdist.RaftIndices

/-!
# Sections read what the log retains

A peer that is related to the history never reads outside its log: the
handlers of requests and replies, the sections of an election and the polling
loop return on every request and reply that a run can hand them. The one
assumption is on a leader's next indices, which the replies have to keep
within the leader's log.
-/

set_option autoImplicit false

namespace Mitdist.RaftReads
open Mitdist.RaftPeer Mitdist.RaftHandlers Mitdist.RaftWindow Mitdist.RaftCluster
open Mitdist.StampedLog Mitdist.LeaderProtocol Mitdist.RaftRelation Mitdist.RaftSections
open Mitdist.RaftOutcomes Mitdist.RaftReplication Mitdist.RaftHints Mitdist.RaftIndices

variable {C : Type} {n : ℕ} {a : Past C} {i : ℕ} {rf : Raft C}

theorem election_reads (h : Peer n a i rf) : ∃ x, election rf = .ok x := by
  obtain ⟨b,w⟩ := h.window
  have w1 : Window (a.log i) b (persist { rf with
      currentTerm := rf.currentTerm+1, votedFor := some rf.me }) :=
    window_of _ b w rfl rfl rfl rfl
  rw [election, last_log_term w1]
  exact ⟨_,rfl⟩

theorem request_vote_reads (hs : Sound n a) (h : Peer n a i rf) (args : RequestVoteArgs) :
    ∃ x, requestVote rf args = .ok x := by
  obtain ⟨b,w⟩ := (higher_term hs h args.term).window
  rw [requestVote]
  generalize handleHigherTerm rf args.term = rf1 at w ⊢
  have hv : ∃ x, vote rf1 args = .ok x := by
    rw [vote, updatedLog, last_log_term w, ok_bind]
    split_ifs
    · simp only [pure, Except.pure, ok_bind]
      split_ifs <;> exact ⟨_,rfl⟩
    · exact ⟨_,rfl⟩
  obtain ⟨⟨rf2,granted⟩,hv⟩ := hv
  simp only [hv, ok_bind]
  split_ifs <;> exact ⟨_,rfl⟩

theorem append_local_reads (l m : List (LogEntry C)) (b p : ℕ) (w : Window l b rf)
    (hm : Indexed m)
    (hagree : ∀ k, k ≤ l.length → k ≤ m.length → stampAt l k = stampAt m k → l.take k = m.take k)
    (entries : List (LogEntry C)) (hbp : b ≤ p) (hpl : p ≤ l.length) (hpm : p ≤ m.length)
    (ht : l.take p = m.take p) (he : m.drop p = entries) :
    ∃ rf', appendEntriesLocal rf entries = .ok rf' := by
  rw [appendEntriesLocal]
  split_ifs
  · exact ⟨_,rfl⟩
  · rw [append_loop w m hm hagree entries p hbp hpl hpm ht he]
    exact ⟨_,rfl⟩

/-- A request of a leader is below the snapshot, or its entries continue the
log up to the first one that differs, or it is rejected with a hint. -/
theorem append_entries_reads (hs : Sound n a) (h : Peer n a i rf)
    (r : Call (AppendEntriesArgs C) AppendEntriesReply) (p : ℕ) (hr : AppendRel n a r p) :
    ∃ x, appendEntries rf r.args = .ok x := by
  have h1 := stop_candidacy (higher_term hs h r.args.term) r.args.term
  have hs1 := raised_to_sound (i := i) hs r.args.term
  have hst := raised_to_steps (majorities n) a i r.args.term
  have hr1 := append_grows (steps_inv hs.inv hst).2.1 r p hr
  have hmax := raised_to_term a i r.args.term
  generalize hrf1 : stopCandidacy (handleHigherTerm rf r.args.term) r.args.term = rf1 at *
  generalize raisedTo a i r.args.term = a1 at *
  obtain ⟨b,w⟩ := h1.window
  have hterm := h1.term
  by_cases hskip : p < b
  · rw [appendEntries, hrf1, if_pos (by rw [hr.prev, w.included]; omega)]
    exact ⟨_,rfl⟩
  by_cases hmatch : p ≤ (a1.log i).length ∧ stampAt (a1.log i) p = r.args.prevLogTerm
  · by_cases hold : r.args.term < rf1.currentTerm
    · rw [appendEntries, hrf1, hr.prev, if_neg (by rw [w.included]; omega),
        entry_has_term w p (by omega), ok_bind, decide_eq_true hmatch, mismatchInfo, if_pos rfl,
        ok_bind, if_neg (by simp [hold])]
      exact ⟨_,rfl⟩
    · have ht : a1.term i = r.args.term := by omega
      obtain ⟨m,-,hmlen,hmi,hagree,htake,hent⟩ := request_prefix hs1 r p hr1 ht hmatch.1 hmatch.2
      obtain ⟨rf2,hrf2⟩ := append_local_reads _ m b p w hmi hagree _ (by omega) hmatch.1 (by omega)
        htake hent
      exact ⟨_,append_entries_accepted rf rf1 rf2 r.args hrf1.symm _ b p w hr.prev (by omega) hmatch
        hold hrf2⟩
  · rw [append_entries_rejected rf rf1 r.args hrf1.symm _ b p w hr.prev (by omega) hmatch]
    exact ⟨_,rfl⟩

theorem install_snapshot_reads (hs : Sound n a) (h : Peer n a i rf)
    (r : Call InstallSnapshotArgs InstallSnapshotReply) (p : ℕ) (hr : SnapshotRel n a r p) :
    ∃ x, installSnapshot rf r.args = .ok x := by
  have h1 := higher_term hs h r.args.term
  have hs1 := raised_to_sound (i := i) hs r.args.term
  obtain ⟨b,w⟩ := h1.window
  rw [installSnapshot]
  generalize handleHigherTerm rf r.args.term = rf1 at w ⊢
  generalize raisedTo a i r.args.term = a1 at *
  have w1 : Window (a1.log i) b { rf1 with snapshot := r.args.snapshot } :=
    window_of _ b w rfl rfl rfl rfl
  have hidx := indexed_rooted n a1 hs1 _ (hs1.inv.log_rooted i)
  simp only
  split_ifs with hold
  · exact ⟨_,rfl⟩
  · push Not at hold
    rw [hr.last, w.included] at hold
    rw [hr.last, entry_has_term w1 p (by omega), ok_bind, rebase]
    split_ifs with hfound
    · rw [hr.last, trim_window w1 hidx p (by omega) (of_decide_eq_true hfound).1, ok_bind]
      exact ⟨_,rfl⟩
    · exact ⟨_,rfl⟩

/-- A reply of the leader's own term is about a position of its log. -/
theorem append_reply_reads (hs : Sound n a) (h : Peer n a i rf)
    (r : Call (AppendEntriesArgs C) AppendEntriesReply) (p : ℕ) (hr : AppendRel n a r p)
    (reply : AppendEntriesReply) :
    ∃ rf', handleAppendReply rf r.callee r.args reply = .ok rf' := by
  by_cases hlive : rf.state = .leader ∧ rf.currentTerm = r.args.term ∧ reply.term ≤ r.args.term
  · obtain ⟨hl,ht,hle⟩ := hlive
    obtain ⟨b,w⟩ := h.window
    have hnext : r.callee < rf.nextIndex.length := h.nextLength ▸ hr.callee
    have hmatch : r.callee < rf.matchIndex.length := h.matchLength ▸ hr.callee
    have hlog := hs.inv.log_lead i (h.leader hl)
    have hlen := hr.length
    rw [← ht, h.term, ← hlog] at hlen
    by_cases hsucc : reply.success = true
    · exact ⟨_,append_reply_accepted rf r.callee r.args reply hl ht hle hsucc hnext hmatch⟩
    · exact ⟨_,append_reply_rejected w r.callee r.args reply p hl ht hle (by simpa using hsucc)
        hnext hr.prev (by omega)⟩
  · rw [handleAppendReply, if_pos]
    · exact ⟨_,rfl⟩
    · by_contra hc
      push Not at hc
      obtain ⟨hsame,hle⟩ := higher_term_leader rf reply.term hc.1
      rw [hsame] at hc
      exact hlive ⟨hc.1,hc.2,hc.2 ▸ hle⟩

theorem append_missing_reads (h : Peer n a i rf) (term server : ℕ) (hserver : server < n)
    (hb : rf.state = .leader → ∀ v ∈ rf.nextIndex, 0 ≤ v ∧ v ≤ lastLogIndex rf + 1) :
    ∃ x, appendMissingEntries rf term server = .ok x := by
  by_cases hlive : rf.state = .leader ∧ rf.currentTerm = term
  · obtain ⟨hl,rfl⟩ := hlive
    obtain ⟨b,w⟩ := h.window
    have hlt : server < rf.nextIndex.length := h.nextLength ▸ hserver
    have hget := List.getElem?_eq_getElem hlt
    obtain ⟨h0,h1⟩ := hb hl _ (List.mem_of_getElem? hget)
    rw [last_log_index w] at h1
    obtain ⟨p,hp⟩ := Int.eq_ofNat_of_zero_le h0
    rw [hp] at hget h1
    exact ⟨_,append_missing_entries w server p hl (by omega) hget⟩
  · rw [appendMissingEntries, if_pos (by tauto)]
    exact ⟨_,rfl⟩

theorem advance_commit_reads (h : Peer n a i rf) : ∃ rf', advanceCommitIndex rf = .ok rf' := by
  obtain ⟨b,w⟩ := h.window
  rw [advanceCommitIndex]
  simp only
  split_ifs with hrun hup
  · have hle := (largest_on_majority rf hup.2).1
    have hc := h.committed
    rw [w.included] at hc
    rw [last_log_index w] at hle
    obtain ⟨p,hp⟩ : ∃ p : ℕ, largestOnMajority rf = (p:ℤ)-1 :=
      ⟨(largestOnMajority rf+1).toNat,by omega⟩
    obtain ⟨e,he,-⟩ := log_entry_ok w p (by omega) (by omega)
    rw [hp, he]
    exact ⟨_,rfl⟩
  · exact ⟨_,rfl⟩
  · exact ⟨_,rfl⟩

end Mitdist.RaftReads
