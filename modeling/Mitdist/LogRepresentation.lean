import Mitdist.RaftReads
import Mitdist.RaftServers
import Mitdist.RaftSafety

/-!
# The representation of a log and the indices into it

In every state of a cluster the log of a server is a window of consecutive
entries with terms that do not decrease, and what a leader keeps about the
other servers are indices into its own log. A reply is handled later than its
request was sent, and against a log that has been extended or trimmed since;
its hint stays within the log of the leader that asked, so that no section of
a run reads outside a log.
-/

set_option autoImplicit false

namespace Mitdist.LogRepresentation
open Mitdist.RaftPeer Mitdist.RaftHandlers Mitdist.RaftWindow Mitdist.RaftCluster
open Mitdist.RaftOutcomes Mitdist.RaftInstance Mitdist.RaftEvents Mitdist.StampedLog
open Mitdist.StampedSearch Mitdist.LeaderProtocol Mitdist.RaftRelation Mitdist.RaftSections
open Mitdist.RaftHints Mitdist.RaftReads Mitdist.RaftSimulation Mitdist.RaftServers
open Mitdist.RaftSafety Mitdist.TransitionSystem

variable {C : Type} {n : ℕ} {c : Cluster C} {a : Past C} {i : ℕ} {rf rf' : Raft C}

/-- What a leader keeps about the other servers lies within its log. -/
structure ViewBounds (rf : Raft C) : Prop where
  next : ∀ v ∈ rf.nextIndex, 0 ≤ v ∧ v ≤ lastLogIndex rf + 1
  matched : ∀ v ∈ rf.matchIndex, -1 ≤ v ∧ v ≤ lastLogIndex rf

/-- A rejection of the request's own term hints at an index of the log that
the request came from. -/
def Hinted (r : Call (AppendEntriesArgs C) AppendEntriesReply) : Prop :=
  ∀ y, r.reply = some y → y.success = false → y.term = r.args.term →
    0 ≤ y.logInfo.len ∧ (r.args.prevLogIndex < y.logInfo.len →
      0 ≤ y.logInfo.index ∧ y.logInfo.index ≤ r.args.prevLogIndex)

def Bounded (c : Cluster C) (_ : Past C) : Prop :=
  (∀ i, (c.servers i).state = .leader → ViewBounds (c.servers i)) ∧ ∀ r ∈ c.appendCalls, Hinted r

theorem bounded_initial (C : Type) (n : ℕ) :
    Bounded (RaftCluster.initial C n) LeaderProtocol.initial :=
  ⟨fun i hl => by simp [RaftCluster.initial, make] at hl,
    fun r hr => by simp [RaftCluster.initial] at hr⟩

theorem bounds_same (hb : ViewBounds rf) (hn : rf'.nextIndex = rf.nextIndex)
    (hm : rf'.matchIndex = rf.matchIndex) (hlast : lastLogIndex rf ≤ lastLogIndex rf') :
    ViewBounds rf' := by
  constructor
  · intro v hv
    have := hb.next v (hn ▸ hv)
    omega
  · intro v hv
    have := hb.matched v (hm ▸ hv)
    omega

theorem become_leader_bounds (h : Peer n a i rf) (he : becomeLeader rf = .ok rf') :
    ViewBounds rf' := by
  obtain ⟨b,w⟩ := h.window
  have hlast := last_log_index w
  rw [becomeLeader, bind_ok] at he
  obtain ⟨m,hm,he⟩ := he
  obtain ⟨-,rfl⟩ := (store_ok _ _ _ _).mp hm
  obtain rfl := Except.ok.inj he
  constructor
  · intro v hv
    obtain ⟨x,-,rfl⟩ := List.mem_map.mp hv
    show 0 ≤ lastLogIndex rf + 1 ∧ lastLogIndex rf + 1 ≤ lastLogIndex rf + 1
    omega
  · intro v hv
    show -1 ≤ v ∧ v ≤ lastLogIndex rf
    rcases List.mem_or_eq_of_mem_set hv with hv | rfl
    · obtain ⟨x,-,rfl⟩ := List.mem_map.mp hv
      omega
    · omega

theorem start_bounds (h : Peer n a i rf) (hl : rf.state = .leader) (hb : ViewBounds rf)
    (command : Option C) (r : ℤ × ℕ × Bool) (he : start rf command = .ok (rf', r)) :
    ViewBounds rf' := by
  obtain ⟨b,w⟩ := h.window
  have hlast := last_log_index w
  rw [start, if_pos hl, appendEntryLocal, bind_ok] at he
  obtain ⟨rf1,hrf1,he⟩ := he
  rw [bind_ok] at hrf1
  obtain ⟨m,hm,hrf1⟩ := hrf1
  obtain ⟨-,rfl⟩ := (store_ok _ _ _ _).mp hm
  obtain rfl := (Prod.mk.inj (Except.ok.inj he)).1
  have hgrow : lastLogIndex rf1 = lastLogIndex rf + 1 := by
    rw [← Except.ok.inj hrf1]
    simp only [lastLogIndex, persist, List.length_append, List.length_singleton]
    omega
  have hnext : rf1.nextIndex = rf.nextIndex := by rw [← Except.ok.inj hrf1]; rfl
  have hmatch : rf1.matchIndex = rf.matchIndex.set rf.me (lastLogIndex rf + 1) := by
    rw [← Except.ok.inj hrf1]
    rfl
  constructor
  · intro v hv
    have := hb.next v (hnext ▸ hv)
    omega
  · intro v hv
    rcases List.mem_or_eq_of_mem_set (hmatch ▸ hv) with hv | rfl
    · have := hb.matched v hv
      omega
    · omega

/-- A reply moves the next index to the end of what was acknowledged, or back
to where the hint and the leader's own search point. -/
theorem append_reply_bounds (hs : Sound n a) (h : Peer n a i rf)
    (r : Call (AppendEntriesArgs C) AppendEntriesReply) (p : ℕ) (hr : AppendRel n a r p)
    (hh : Hinted r) (reply : AppendEntriesReply) (hy : r.reply = some reply)
    (hl : rf.state = .leader) (hb : ViewBounds rf)
    (he : handleAppendReply rf r.callee r.args reply = .ok rf') (hl' : rf'.state = .leader) :
    ViewBounds rf' := by
  obtain ⟨b,w⟩ := h.window
  have hlast := last_log_index w
  rcases append_reply_outcome r.callee r.args reply he with rfl | ⟨-,ht,hle,hcase⟩
  · rw [(higher_term_leader rf reply.term hl').1]
    exact hb
  have hlen := hr.length
  rw [← ht, h.term, ← hs.inv.log_lead i (h.leader hl)] at hlen
  have hprev := hr.prev
  rcases hcase with ⟨-,-,rfl⟩ | ⟨hf,-⟩
  · constructor
    · intro v hv
      show 0 ≤ v ∧ v ≤ lastLogIndex rf + 1
      rcases List.mem_or_eq_of_mem_set hv with hv | rfl
      · exact hb.next v hv
      · omega
    · intro v hv
      show -1 ≤ v ∧ v ≤ lastLogIndex rf
      rcases List.mem_or_eq_of_mem_set hv with hv | rfl
      · exact hb.matched v hv
      · omega
  · have hnext : r.callee < rf.nextIndex.length := h.nextLength ▸ hr.callee
    rw [append_reply_rejected w r.callee r.args reply p hl ht hle hf hnext hprev (by omega)] at he
    obtain rfl := Except.ok.inj he
    have hterm := (hr.replied reply hy).1
    obtain ⟨h0,hindex⟩ := hh reply hy hf (by omega)
    rw [hprev] at hindex
    obtain ⟨hlow,hhigh⟩ := retry_bounds (a.log i) b p reply.logInfo h0 hindex
    refine ⟨fun v hv => ?_,hb.matched⟩
    show 0 ≤ v ∧ v ≤ lastLogIndex rf + 1
    rcases List.mem_or_eq_of_mem_set hv with hv | rfl
    · exact hb.next v hv
    · omega

theorem append_entries_hint (hs : Sound n a) (h : Peer n a i rf)
    (r : Call (AppendEntriesArgs C) AppendEntriesReply) (p : ℕ) (hr : AppendRel n a r p)
    (reply : AppendEntriesReply) (he : appendEntries rf r.args = .ok (rf', reply)) :
    Hinted { r with reply := some reply } := by
  intro y hy hf ht
  obtain rfl := Option.some.inj hy
  have hw := (stop_candidacy (higher_term hs h r.args.term) r.args.term).window
  generalize hrf1 : stopCandidacy (handleHigherTerm rf r.args.term) r.args.term = rf1 at hw
  obtain ⟨b,w⟩ := hw
  obtain ⟨hrep,⟨-,-,hc⟩ | ⟨-,hc,-⟩ | ⟨hskip,-,-⟩⟩ :=
    append_entries_outcome r.args reply rf1 hrf1.symm he
  · simp [hf] at hc
  · simp [hf] at hc
  rw [hr.prev, w.included] at hskip
  by_cases hmatch : p ≤ ((raisedTo a i r.args.term).log i).length ∧
      stampAt ((raisedTo a i r.args.term).log i) p = r.args.prevLogTerm
  · exfalso
    have hold : ¬ r.args.term < rf1.currentTerm := by
      simp only at ht
      omega
    rw [appendEntries, hrf1, hr.prev, if_neg (by rw [w.included]; omega),
      entry_has_term w p (by omega), ok_bind, decide_eq_true hmatch, mismatchInfo, if_pos rfl,
      ok_bind, if_pos ⟨rfl,hold⟩, bind_ok] at he
    obtain ⟨rf2,-,he⟩ := he
    simp [← (Prod.mk.inj (Except.ok.inj he)).2] at hf
  · have hpos : 0 < p := by
      by_contra hc
      obtain rfl : p = 0 := by omega
      exact hmatch ⟨Nat.zero_le _,hr.prevTerm.symm⟩
    rw [append_entries_rejected rf rf1 r.args hrf1.symm _ b p w hr.prev (by omega) hmatch] at he
    rw [← (Prod.mk.inj (Except.ok.inj he)).2]
    simp only [hr.prev]
    exact hint_bounds _ b p hpos

theorem bounded_carried : Carried (C := C) n (fun _ _ => True) Bounded := by
  intro c e c' i a a' hsim hb _ hruns hst hsim' heff
  have hg := (steps_inv hsim.sound.inv hst).2.1
  constructor
  · intro j hl
    rcases runs_server hsim e hruns j with hs | ⟨s,m,hsec,hran⟩
    · rw [hs] at hl ⊢
      exact hb.1 j hl
    rcases leads_section s m hran hl with ⟨hstill,hcase⟩ | ⟨-,hbec⟩
    · have hold := hb.1 j hstill.1
      rcases hcase with ⟨hn,hm⟩ | ⟨command,rfl⟩ | ⟨server,args,reply,rfl⟩
      · obtain ⟨b,w⟩ := (hsim.peer j).window
        obtain ⟨b',w'⟩ := (hsim'.peer j).window
        have hlen := (leader_log_grows hsim hsim' hg j hstill.1 hl hstill.2).length_le
        refine bounds_same hold hn hm ?_
        rw [last_log_index w, last_log_index w']
        omega
      · cases hran with
        | start _ _ r he => exact start_bounds (hsim.peer j) hstill.1 hold command r he
      · obtain ⟨k,r,-,hk,hy,-,rfl,rfl⟩ := append_reply_origin e j server args reply hsec
        have hmem := List.mem_of_getElem? hk
        obtain ⟨p,hr⟩ := hsim.appends r hmem
        cases hran with
        | handleAppendReply _ _ _ _ he =>
          exact append_reply_bounds hsim.sound (hsim.peer j) r p hr (hb.2 r hmem) reply hy
            hstill.1 hold he hl
    · exact become_leader_bounds (hsim.peer j) hbec
  · intro r hr
    cases hruns with
    | appendMissingEntries j term server request hj hs hne he =>
      rcases request with - | args | args
      · exact hb.2 r hr
      · rcases List.mem_append.mp hr with hr | hr
        · exact hb.2 r hr
        · rw [List.mem_singleton.mp hr]
          exact fun y hy => by simp at hy
      · exact hb.2 r hr
    | appendEntries k r0 rf reply hk hn he =>
      rcases List.mem_or_eq_of_mem_set hr with hr | rfl
      · exact hb.2 r hr
      · obtain ⟨p,hrel⟩ := hsim.appends r0 (List.mem_of_getElem? hk)
        exact append_entries_hint hsim.sound (hsim.peer r0.callee) r0 p hrel reply he
    | handleAppendReply k r0 rf reply hk hy he =>
      rcases List.mem_or_eq_of_mem_set hr with hr | rfl
      · exact hb.2 r hr
      · exact hb.2 r0 (List.mem_of_getElem? hk)
    | _ => exact hb.2 r hr

theorem rooted_ascending (hs : Sound n a) (l : List (LogEntry C)) (hr : Rooted a l) :
    Ascending l := by
  intro j k hjk hk
  cases j with
  | zero => exact Nat.zero_le _
  | succ j =>
    obtain ⟨q,rfl⟩ : ∃ q, k = q+1 := ⟨k-1,by omega⟩
    obtain ⟨d,hd,hds⟩ := getElem_stamp_at l j (by omega)
    obtain ⟨e,he,hes⟩ := getElem_stamp_at l q (by omega)
    rw [← hds, ← hes]
    apply lead_le hs.inv
    apply (hr q e he).2.mem
    apply List.mem_of_getElem? (i := j)
    rw [List.getElem?_take, if_pos (by omega), hd]

/-- The log of a server, and the indices into it that a leader keeps. -/
structure Represented (n : ℕ) (rf : Raft C) : Prop where
  base : rf.baseIndex = rf.lastIncludedIndex + 1
  index : ∀ (k : ℕ) (e : LogEntry C), rf.log[k]? = some e → e.index = rf.baseIndex + k
  ascending : (rf.lastIncludedTerm :: rf.log.map LogEntry.term).Pairwise (· ≤ ·)
  reached : ∀ t ∈ rf.lastIncludedTerm :: rf.log.map LogEntry.term, t ≤ rf.currentTerm
  committed : rf.lastIncludedIndex ≤ rf.commitIndex
  next : rf.state = .leader → ∀ j < n, ∃ v, rf.nextIndex[j]? = some v ∧ 0 ≤ v ∧
    v ≤ lastLogIndex rf + 1
  matched : rf.state = .leader → ∀ j < n, ∃ v, rf.matchIndex[j]? = some v ∧ -1 ≤ v ∧
    v ≤ lastLogIndex rf

theorem window_ascending (l : List (LogEntry C)) (b : ℕ) (w : Window l b rf) (h : Ascending l) :
    (rf.lastIncludedTerm :: rf.log.map LogEntry.term).Pairwise (· ≤ ·) := by
  have hall : l.Pairwise (fun d e => d.term ≤ e.term) := by
    rw [List.pairwise_iff_getElem]
    intro j k hj hk hjk
    have := h (j+1) (k+1) (by omega) (by omega)
    rw [stamp_at_succ l j _ (List.getElem?_eq_getElem hj),
      stamp_at_succ l k _ (List.getElem?_eq_getElem hk)] at this
    exact this
  rw [w.log, w.includedTerm, List.pairwise_cons, List.pairwise_map]
  refine ⟨fun t ht => ?_,hall.drop⟩
  obtain ⟨e,he,rfl⟩ := List.mem_map.mp ht
  obtain ⟨k,hk⟩ := List.mem_iff_getElem?.mp he
  rw [List.getElem?_drop] at hk
  have hlt := (List.getElem?_eq_some_iff.mp hk).1
  have := h b (b+k+1) (by omega) (by omega)
  rw [stamp_at_succ l (b+k) e hk] at this
  exact this

theorem stamp_reached (hs : Sound n a) (p : ℕ) : stampAt (a.log i) p ≤ a.term i := by
  cases p with
  | zero => exact Nat.zero_le _
  | succ p =>
    rw [stampAt]
    cases he : (a.log i)[p]? with
    | none => exact Nat.zero_le _
    | some e => exact hs.inv.log_le i e (List.mem_of_getElem? he)

theorem represented (hs : Sim n c a) (hb : Bounded c a) (i : ℕ) :
    Represented n (c.servers i) := by
  have h := hs.peer i
  obtain ⟨b,w⟩ := h.window
  have ho := peer_ordered hs i
  exact
    { base := ho.base
      index := ho.index
      ascending := window_ascending _ b w (rooted_ascending hs.sound _ (hs.sound.inv.log_rooted i))
      reached := by
        rw [w.log, w.includedTerm, h.term]
        intro t ht
        rcases List.mem_cons.mp ht with rfl | ht
        · exact stamp_reached hs.sound b
        · obtain ⟨e,he,rfl⟩ := List.mem_map.mp ht
          exact hs.sound.inv.log_le i e (List.mem_of_mem_drop he)
      committed := h.committed
      next := fun hl j hj => by
        have hget := List.getElem?_eq_getElem (h.nextLength.symm ▸ hj : j < _)
        exact ⟨_,hget,(hb.1 i hl).next _ (List.mem_of_getElem? hget)⟩
      matched := fun hl j hj => by
        have hget := List.getElem?_eq_getElem (h.matchLength.symm ▸ hj : j < _)
        exact ⟨_,hget,(hb.1 i hl).matched _ (List.mem_of_getElem? hget)⟩ }

theorem reachable_bounded (es : List (Event C))
    (h : exec n (RaftCluster.initial C n) es = some c) : ∃ a, Sim n c a ∧ Bounded c a := by
  obtain ⟨a,-,hs,hb⟩ := sim_run _ _ bounded_carried es (sim_initial C n) (bounded_initial C n)
    (meets_true _ es _) h
  exact ⟨a,hs,hb⟩

/-- In every state that a run of a cluster reaches, the log of every server
is well represented, and the handlers and sections return on all requests and
replies in flight, so that every access to a log is in range. -/
theorem index_safety (n : ℕ) (es : List (Event C)) (c : Cluster C)
    (h : exec n (RaftCluster.initial C n) es = some c) :
    (∀ i, Represented n (c.servers i)) ∧
    (∀ e ∈ c.elections, ∀ j, ∃ x, requestVote (c.servers j) e.args = .ok x) ∧
    (∀ r ∈ c.appendCalls, ∃ x, appendEntries (c.servers r.callee) r.args = .ok x) ∧
    (∀ r ∈ c.appendCalls, ∀ reply ∈ r.reply,
      ∃ rf, handleAppendReply (c.servers r.caller) r.callee r.args reply = .ok rf) ∧
    (∀ r ∈ c.snapshotCalls, ∃ x, installSnapshot (c.servers r.callee) r.args = .ok x) ∧
    (∀ i term server, server < n →
      ∃ x, appendMissingEntries (c.servers i) term server = .ok x) ∧
    (∀ i, ∃ x, election (c.servers i) = .ok x) ∧
    ∀ i, ∃ rf, advanceCommitIndex (c.servers i) = .ok rf := by
  obtain ⟨a,hs,hb⟩ := reachable_bounded es h
  refine ⟨represented hs hb,fun e _ j => request_vote_reads hs.sound (hs.peer j) e.args,
    fun r hr => ?_,fun r hr reply _ => ?_,fun r hr => ?_,fun i term server hserver => ?_,
    fun i => election_reads (hs.peer i),fun i => advance_commit_reads (hs.peer i)⟩
  · obtain ⟨p,hrel⟩ := hs.appends r hr
    exact append_entries_reads hs.sound (hs.peer r.callee) r p hrel
  · obtain ⟨p,hrel⟩ := hs.appends r hr
    exact append_reply_reads hs.sound (hs.peer r.caller) r p hrel reply
  · obtain ⟨p,hrel⟩ := hs.snapshots r hr
    exact install_snapshot_reads hs.sound (hs.peer r.callee) r p hrel
  · exact append_missing_reads (hs.peer i) term server hserver (fun hl => (hb.1 i hl).next)

/-- Server 1 is elected with the entry that it was sent, and server 2, whose
log is empty, rejects its first request. -/
def rejectedRequest : List (Event ℕ) :=
  replicated ++ [.election 1, .requestVote 1 2, .requestVoteReply 1 2, .countVote 1 2,
    .gatherVotes 1, .concludeElection 1, .appendMissingEntries 1 2 2, .appendEntries 1,
    .handleAppendReply 1]

theorem index_safety_rejected : ∃ c, RaftCluster.exec 3 (RaftCluster.initial ℕ 3) rejectedRequest =
    some c ∧ (c.servers 1).state = .leader ∧ (c.servers 1).nextIndex = [1,1,0] ∧
    (∀ i, Represented 3 (c.servers i)) ∧
    ∃ x, appendMissingEntries (c.servers 1) 2 2 = .ok x := by
  obtain ⟨c,hc⟩ := Option.isSome_iff_exists.mp
    (by decide +kernel : (RaftCluster.exec 3 (RaftCluster.initial ℕ 3) rejectedRequest).isSome)
  have hview : ∀ d ∈ RaftCluster.exec 3 (RaftCluster.initial ℕ 3) rejectedRequest,
      (d.servers 1).state = .leader ∧ (d.servers 1).nextIndex = [1,1,0] := by decide +kernel
  have hsafe := index_safety 3 rejectedRequest c hc
  exact ⟨c,hc,(hview c hc).1,(hview c hc).2,hsafe.1,hsafe.2.2.2.2.2.1 1 2 2 (by decide)⟩

end Mitdist.LogRepresentation
