import Mitdist.RaftServers
import Mitdist.RaftSafety

/-!
# The leader's view of its followers

An acknowledgement in the leader's own term is backed by a stored prefix of
the leader's log. The answer to a request below the follower's snapshot is
backed only as far as the snapshot reaches, so the leader's view is sound in
every run in which such requests carry nothing beyond the snapshot.
-/

set_option autoImplicit false

namespace Mitdist.MatchIndex
open Mitdist.RaftPeer Mitdist.RaftHandlers Mitdist.RaftWindow Mitdist.RaftCluster
open Mitdist.RaftOutcomes Mitdist.RaftEvents Mitdist.LeaderProtocol Mitdist.RaftRelation
open Mitdist.RaftSimulation Mitdist.RaftServers Mitdist.RaftSafety Mitdist.TransitionSystem

variable {C : Type} {n : ℕ} {c : Cluster C} {a : Past C}

/-- A request that is answered below the follower's snapshot ends below it. -/
def Covers (c : Cluster C) : Event C → Prop
  | .appendEntries k => ∀ r ∈ c.appendCalls[k]?, Skips (c.servers r.callee) r.args →
      r.args.prevLogIndex + r.args.entries.length ≤ (c.servers r.callee).lastIncludedIndex
  | _ => True

instance decidableCovers (c : Cluster C) : ∀ e, Decidable (Covers c e)
  | .appendEntries k => inferInstanceAs (Decidable (∀ r ∈ c.appendCalls[k]?,
      Skips (c.servers r.callee) r.args →
      r.args.prevLogIndex + r.args.entries.length ≤ (c.servers r.callee).lastIncludedIndex))
  | .election _ | .requestVote _ _ | .requestVoteReply _ _ | .requestVoteFailed _ _
  | .countVote _ _ | .gatherVotes _ | .concludeElection _ | .appendMissingEntries _ _ _
  | .handleAppendReply _ | .installSnapshot _ | .installSnapshotReply _ | .start _ _
  | .advanceCommitIndex _ | .apply _ | .snapshot _ _ _ | .crash _ => .isTrue trivial

def Covered (c : Cluster C) (a : Past C) : Prop :=
  ∀ j t, (a.hollow j t : ℤ) ≤ (c.servers j).baseIndex

theorem covered_initial (C : Type) (n : ℕ) :
    Covered (RaftCluster.initial C n) LeaderProtocol.initial :=
  fun _ _ => le_rfl

theorem effect_hollow (e : Event C) (c : Cluster C) (a a' : Past C) (h : Effect n c a a' e)
    (he : ∀ k, e ≠ .appendEntries k) : a'.hollow = a.hollow := by
  cases e with
  | appendEntries k => exact absurd rfl (he k)
  | installSnapshot k => exact h.1
  | _ => exact h

theorem covered_carried : Carried (C := C) n Covers Covered := by
  intro c e c' i a a' hsim hcov hok hruns hst hsim' heff j t
  refine le_trans ?_ (base_monotone hsim hsim' e hruns j)
  have hold := hcov j t
  by_cases he : ∃ k, e = .appendEntries k
  · obtain ⟨k,rfl⟩ := he
    cases hruns with
    | appendEntries _ r rf reply hk hn hae =>
      obtain ⟨p,hrel⟩ := hsim.appends r (List.mem_of_getElem? hk)
      rcases heff r p rf reply hk hrel hae with ⟨hskip,-,hhol⟩ | ⟨hhol,-⟩
      · rw [hhol]
        simp only [set2]
        split_ifs with hjt
        · obtain ⟨rfl,rfl⟩ := hjt
          have hend := hok r hk hskip
          have hprev := hrel.prev
          have hb := (peer_ordered hsim r.callee).base
          omega
        · exact hold
      · rw [hhol]
        exact hold
  · rw [effect_hollow e c a a' heff (fun k hk => he ⟨k,hk⟩)]
    exact hold

/-- An acknowledged prefix is stored while the term lasts. -/
theorem acknowledged_stored (hs : Sim n c a) (j k : ℕ) (hk : k ≤ a.ack j (a.term j)) :
    (a.lead (a.term j)).take k <+: a.log j := by
  rcases hs.sound.inv.ack_log j _ k hk with hp | ⟨s,hlow,hhigh,-⟩
  · exact hp
  · omega

/-- In every run in which no request below a snapshot carries entries beyond
it, a follower in the leader's term stores the leader's log up to the index
that the leader has for it. -/
theorem match_index_sound (n : ℕ) (es : List (Event C)) (c : Cluster C)
    (hm : Meets (step n) Covers (RaftCluster.initial C n) es)
    (h : exec n (RaftCluster.initial C n) es = some c) (L j T : ℕ) (k : ℤ)
    (hl : (c.servers L).state = .leader) (ht : (c.servers L).currentTerm = T)
    (hj : (c.servers j).currentTerm = T) (hk : (c.servers L).matchIndex[j]? = some k) :
    k ≤ lastLogIndex (c.servers j) ∧
    ∀ (x : ℤ) (d e : LogEntry C), x ≤ k → Retains (c.servers L) x d → Retains (c.servers j) x e →
      d.term = e.term ∧ d.command = e.command := by
  obtain ⟨a,-,hs,hcov⟩ := sim_run Covers Covered covered_carried es (sim_initial C n)
    (covered_initial C n) hm h
  have hterm : a.term L = a.term j := by
    rw [← (hs.peer L).term, ← (hs.peer j).term, ht, hj]
  obtain ⟨b,w⟩ := (hs.peer j).window
  have hclaim := (hs.peer L).matched hl j k hk
  have hlog := hs.sound.inv.log_lead L ((hs.peer L).leader hl)
  rw [hterm] at hclaim hlog
  have hhol := hcov j (a.term j)
  have hb := w.bound
  rw [w.base] at hhol
  rw [last_log_index w]
  rcases le_total (a.hollow j (a.term j)) (a.ack j (a.term j)) with hle | hle
  · rw [claimed, max_eq_left hle] at hclaim
    have hstored := acknowledged_stored hs j _ le_rfl
    have hlen := hstored.length_le
    have hack := hs.sound.inv.ack_le j (a.term j)
    rw [List.length_take, min_eq_left hack] at hlen
    refine ⟨by omega,fun x d e hx hd he => ?_⟩
    obtain ⟨p,rfl,hdp⟩ := retains_whole c a hs L x d hd
    obtain ⟨q,hq,heq⟩ := retains_whole c a hs j p e he
    obtain rfl : p = q := by omega
    obtain ⟨rest,hrest⟩ := hstored
    have hpa : p < a.ack j (a.term j) := by omega
    rw [← hrest, List.getElem?_append_left (by rw [List.length_take]; omega), List.getElem?_take,
      if_pos hpa, ← hlog, hdp] at heq
    rw [Option.some.inj heq]
    exact ⟨rfl,rfl⟩
  · rw [claimed, max_eq_right hle] at hclaim
    refine ⟨by omega,fun x d e hx _ he => ?_⟩
    have := he.1
    rw [w.included] at this
    omega

theorem match_index_sound_replicated : ∃ c,
    RaftCluster.exec 3 (RaftCluster.initial ℕ 3) (replicated ++ [.handleAppendReply 0]) = some c ∧
    (c.servers 0).matchIndex[1]? = some 0 ∧ 0 ≤ lastLogIndex (c.servers 1) :=
  ⟨_,rfl,by decide +kernel,(match_index_sound 3 (replicated ++ [.handleAppendReply 0]) _
    (by decide +kernel) rfl 0 1 1 0 (by decide +kernel) (by decide +kernel) (by decide +kernel)
    (by decide +kernel)).1⟩

/-- The follower commits and snapshots its first entry while an older view of
it makes the leader send that entry once more, together with a new one. -/
def skippedRequest : List (Event ℕ) :=
  [.election 0, .requestVote 0 1, .requestVoteReply 0 1, .countVote 0 1, .gatherVotes 0,
    .concludeElection 0, .start 0 (some 7), .appendMissingEntries 0 1 1,
    .appendMissingEntries 0 1 2, .appendEntries 0, .appendEntries 1, .handleAppendReply 1,
    .advanceCommitIndex 0, .appendMissingEntries 0 1 1, .appendEntries 2, .apply 1,
    .snapshot 1 1 [1], .start 0 (some 8), .appendMissingEntries 0 1 1, .appendEntries 3,
    .handleAppendReply 3]

theorem match_index_unsound : ∃ c,
    RaftCluster.exec 3 (RaftCluster.initial ℕ 3) skippedRequest = some c ∧
    (c.servers 0).state = .leader ∧ (c.servers 0).currentTerm = 1 ∧
    (c.servers 1).currentTerm = 1 ∧ (c.servers 0).matchIndex[1]? = some 1 ∧
    lastLogIndex (c.servers 1) = 0 :=
  ⟨_,rfl,by decide +kernel,by decide +kernel,by decide +kernel,by decide +kernel,by decide +kernel⟩

end Mitdist.MatchIndex
