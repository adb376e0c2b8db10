import Mitdist.RaftWindow
import Mitdist.RaftCluster
import Mitdist.LeaderSafety
import Mathlib.Data.Finset.Card

/-!
# The relation between a cluster and the abstract protocol

A peer shows a window of its whole log, a request in flight is a prefix of
the log of the leader that sent it, and the votes counted in an election were
cast. The abstract history is what a cluster forgets: discarded entries, old
votes and acknowledgements. Every part of the relation survives a step of
another server, and the parts about calls survive every step.
-/

set_option autoImplicit false

namespace Mitdist.RaftRelation
open Mitdist.RaftPeer Mitdist.RaftHandlers Mitdist.RaftWindow Mitdist.RaftCluster
open Mitdist.StampedLog Mitdist.LeaderProtocol Mitdist.RaftOutcomes

variable {C : Type}

abbrev Past (C : Type) := History ℕ (LogEntry C)

def majorities (n : ℕ) : Quorums ℕ where
  IsQuorum q := ∃ v : Finset ℕ, v ⊆ Finset.range n ∧ n/2+1 ≤ v.card ∧ ∀ i ∈ v, i ∈ q
  meet := by
    rintro p q ⟨v,hv,hvc,hvp⟩ ⟨u,hu,huc,huq⟩
    have hlt : (Finset.range n).card < v.card+u.card := by
      rw [Finset.card_range]
      omega
    obtain ⟨i,hi⟩ := Finset.inter_nonempty_of_card_lt_card_add_card hv hu hlt
    obtain ⟨hiv,hiu⟩ := Finset.mem_inter.mp hi
    exact ⟨i,hvp i hiv,huq i hiu⟩

/-- What was acknowledged to the leader of a term, stored or not. -/
def claimed (a : Past C) (j t : ℕ) : ℕ := max (a.ack j t) (a.hollow j t)

structure PeerCore (n : ℕ) (a : Past C) (i : ℕ) (rf : Raft C) : Prop where
  me : rf.me = i
  peers : rf.peersCount = n
  nextLength : rf.nextIndex.length = n
  matchLength : rf.matchIndex.length = n
  term : rf.currentTerm = a.term i
  voted : rf.votedFor = a.vote i (a.term i)
  window : ∃ b, Window (a.log i) b rf
  committed : rf.lastIncludedIndex ≤ rf.commitIndex
  leader : rf.state = .leader → a.leader (a.term i) = some i
  candidate : rf.state = .candidate →
    a.leader (a.term i) ≠ some i ∧ ∃ l, a.cand (a.term i) i = some l
  matched : rf.state = .leader → ∀ (j : ℕ) (v : ℤ), rf.matchIndex[j]? = some v →
    v+1 ≤ claimed a j (a.term i)

structure Peer (n : ℕ) (a : Past C) (i : ℕ) (rf : Raft C) : Prop extends PeerCore n a i rf where
  persisted : readPersist rf.persister.raftstate = saved rf

structure ElectionRel (n : ℕ) (a : Past C) (e : Election) : Prop where
  me : e.me < n
  candidate : e.args.candidateId = e.me
  stood : ∃ l, a.cand e.args.term e.me = some l ∧ e.args.lastLogIndex = (l.length:ℤ)-1 ∧
    e.args.lastLogTerm = lastStamp l
  granted : ∀ j r, (e.calls j).reply = some r → j < n ∧
    (r.voteGranted = true → a.vote j e.args.term = some e.me)
  counted : ∃ v : Finset ℕ, v ⊆ Finset.range n ∧ v.card = e.count ∧
    ∀ j ∈ v, a.vote j e.args.term = some e.me ∧ (e.calls j).stage = .finished
  elected : e.elected = some true → n/2+1 ≤ e.count

/-- The entries of a request are those of its leader's log after `p`. -/
structure AppendRel (n : ℕ) (a : Past C) (r : Call (AppendEntriesArgs C) AppendEntriesReply)
    (p : ℕ) : Prop where
  callee : r.callee < n
  other : r.caller ≠ r.callee
  leader : a.leader r.args.term = some r.caller
  prev : r.args.prevLogIndex = (p:ℤ)-1
  length : p+r.args.entries.length ≤ (a.lead r.args.term).length
  entries : ((a.lead r.args.term).take (p+r.args.entries.length)).drop p = r.args.entries
  prevTerm : r.args.prevLogTerm = stampAt (a.lead r.args.term) p
  replied : ∀ y, r.reply = some y → r.args.term ≤ y.term ∧ y.term ≤ a.term r.callee ∧
    (y.success = true → y.term = r.args.term →
      p+r.args.entries.length ≤ claimed a r.callee r.args.term)

structure SnapshotRel (n : ℕ) (a : Past C) (r : Call InstallSnapshotArgs InstallSnapshotReply)
    (p : ℕ) : Prop where
  callee : r.callee < n
  other : r.caller ≠ r.callee
  leader : a.leader r.args.term = some r.caller
  last : r.args.lastIncludedIndex = (p:ℤ)-1
  length : p ≤ (a.lead r.args.term).length
  lastTerm : r.args.lastIncludedTerm = stampAt (a.lead r.args.term) p

/-- A call of `Start` on a leader put its command into the log of the term. -/
def StartedRel (a : Past C) (s : Started C) : Prop :=
  ∃ p : ℕ, s.index = (p:ℤ)+1 ∧
    (a.lead s.term)[p]? = some { index := p, term := s.term, command := s.command }

structure Sound (n : ℕ) (a : Past C) : Prop where
  inv : Inv (majorities n) a
  indexed : ∀ t, Indexed (a.lead t)

structure Sim (n : ℕ) (c : Cluster C) (a : Past C) : Prop where
  sound : Sound n a
  peer : ∀ i, Peer n a i (c.servers i)
  elections : ∀ e ∈ c.elections, ElectionRel n a e
  appends : ∀ r ∈ c.appendCalls, ∃ p, AppendRel n a r p
  snapshots : ∀ r ∈ c.snapshotCalls, ∃ p, SnapshotRel n a r p
  started : ∀ s ∈ c.started, s.isLeader = true → StartedRel a s
  distinct : c.started.Pairwise (fun s s' => s.isLeader = true → s'.isLeader = true →
    s.term = s'.term → s.index ≠ s'.index)

theorem claimed_grows (a b : Past C) (hg : Grows a b) (j t : ℕ) : claimed a j t ≤ claimed b j t :=
  max_le_max (hg.ack j t) (hg.hollow j t)

theorem indexed_take (l : List (LogEntry C)) (h : Indexed l) (p : ℕ) : Indexed (l.take p) := by
  intro k e he
  rw [List.getElem?_take] at he
  split_ifs at he
  exact h k e he

theorem indexed_concat (l : List (LogEntry C)) (h : Indexed l) (e : LogEntry C)
    (he : e.index = l.length) : Indexed (l ++ [e]) := by
  intro k d hd
  rcases lt_or_ge k l.length with hk | hk
  · rw [List.getElem?_append_left hk] at hd
    exact h k d hd
  · rw [List.getElem?_append_right hk, List.getElem?_singleton] at hd
    split_ifs at hd with h0
    rw [← Option.some.inj hd, he]
    omega

/-- A rooted log carries the indices of the leaders' logs. -/
theorem indexed_rooted (n : ℕ) (a : Past C) (hs : Sound n a) (l : List (LogEntry C))
    (hr : Rooted a l) : Indexed l := by
  intro k e he
  obtain ⟨x,hx⟩ := (hr k e he).2
  apply hs.indexed (stamp e) k e
  rw [← hx, List.getElem?_append_left, List.getElem?_take, if_pos (Nat.lt_succ_self k), he]
  have := (List.getElem?_eq_some_iff.mp he).1
  simp
  omega

section
variable {n : ℕ} {a b : Past C} (hg : Grows a b)
include hg

theorem election_grows (e : Election) (h : ElectionRel n a e) : ElectionRel n b e where
  me := h.me
  candidate := h.candidate
  stood := by
    obtain ⟨l,hc,hr⟩ := h.stood
    exact ⟨l,hg.cand _ _ l hc,hr⟩
  granted j r hr := ⟨(h.granted j r hr).1,fun hv => hg.vote _ _ _ ((h.granted j r hr).2 hv)⟩
  counted := by
    obtain ⟨v,hv,hc,hj⟩ := h.counted
    exact ⟨v,hv,hc,fun j hjv => ⟨hg.vote _ _ _ (hj j hjv).1,(hj j hjv).2⟩⟩
  elected := h.elected

theorem append_grows (r : Call (AppendEntriesArgs C) AppendEntriesReply) (p : ℕ)
    (h : AppendRel n a r p) : AppendRel n b r p where
  callee := h.callee
  other := h.other
  leader := (hg.leader _ _ h.leader).1
  prev := h.prev
  length := h.length.trans (hg.lead _).length_le
  entries := by
    rw [take_grows hg _ _ h.length]
    exact h.entries
  prevTerm := by
    have hp : p ≤ (a.lead r.args.term).length := by
      have := h.length
      omega
    rw [← stamp_at_below _ _ p (hg.lead _) hp]
    exact h.prevTerm
  replied y hy := by
    obtain ⟨h1,h2,h3⟩ := h.replied y hy
    exact ⟨h1,h2.trans (hg.term _),fun hs ht => (h3 hs ht).trans (claimed_grows a b hg _ _)⟩

theorem snapshot_grows (r : Call InstallSnapshotArgs InstallSnapshotReply) (p : ℕ)
    (h : SnapshotRel n a r p) : SnapshotRel n b r p where
  callee := h.callee
  other := h.other
  leader := (hg.leader _ _ h.leader).1
  last := h.last
  length := h.length.trans (hg.lead _).length_le
  lastTerm := by
    rw [← stamp_at_below _ _ p (hg.lead _) h.length]
    exact h.lastTerm

theorem started_grows (s : Started C) (h : StartedRel a s) : StartedRel b s := by
  obtain ⟨p,hi,hp⟩ := h
  obtain ⟨x,hx⟩ := hg.lead s.term
  refine ⟨p,hi,?_⟩
  rw [← hx, List.getElem?_append_left (List.getElem?_eq_some_iff.mp hp).1, hp]

/-- Another server's steps leave a peer's relation to the history alone. -/
theorem peer_frame (i j : ℕ) (hf : Frame i a b) (hj : j ≠ i) (rf : Raft C) (h : Peer n a j rf) :
    Peer n b j rf where
  me := h.me
  peers := h.peers
  nextLength := h.nextLength
  matchLength := h.matchLength
  term := by rw [hf.term j hj]; exact h.term
  voted := by rw [hf.term j hj, hf.vote j hj]; exact h.voted
  window := by rw [hf.log j hj]; exact h.window
  committed := h.committed
  leader hl := by rw [hf.term j hj]; exact (hg.leader _ _ (h.leader hl)).1
  candidate hc := by
    rw [hf.term j hj]
    obtain ⟨h1,l,h2⟩ := h.candidate hc
    exact ⟨fun hl => h1 (hf.leader _ j hj hl).1,l,hg.cand _ _ l h2⟩
  matched hl x v hv := by
    rw [hf.term j hj]
    have h1 := h.matched hl x v hv
    have h2 := claimed_grows a b hg x (a.term j)
    omega
  persisted := h.persisted

end

end Mitdist.RaftRelation
