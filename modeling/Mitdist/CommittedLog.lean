import Mitdist.CommitSafety

/-!
# Committed entries stay

The entries up to a commit index are a settled prefix. A settled prefix of a
server's log survives every step, also a crash and the installation of a
snapshot, lies below the log of every later leader and agrees with whatever
any other server commits. A committed entry can only leave a log by being
discarded into a snapshot.
-/

set_option autoImplicit false

namespace Mitdist.CommittedLog
open Mitdist.RaftPeer Mitdist.RaftHandlers Mitdist.RaftWindow Mitdist.RaftCluster
open Mitdist.LeaderProtocol Mitdist.RaftRelation Mitdist.RaftSimulation Mitdist.RaftSafety
open Mitdist.MatchIndex Mitdist.CommitSafety Mitdist.TransitionSystem

variable {C : Type} {n : ℕ} {c : Cluster C} {a : Past C}

/-- The server's whole log starts with a prefix that is settled by its term. -/
def Anchored (n j : ℕ) (p : List (LogEntry C)) (c : Cluster C) (a : Past C) : Prop :=
  Commits n c a ∧ p <+: a.log j ∧ Settled (majorities n) a (a.term j) p

theorem anchored_carried (j : ℕ) (p : List (LogEntry C)) :
    Carried n (fun c e => PollsOnly c e ∧ Covers c e) (Anchored n j p) := by
  intro c e c' i a a' hs ⟨hcom,hlog,hset⟩ hok hruns hst hs' heff
  obtain ⟨-,hg,hf⟩ := steps_inv hs.sound.inv hst
  refine ⟨commits_carried c e c' i a a' hs hcom hok hruns hst hs' heff,?_,
    settled_grows hg _ _ p (hg.term j) hset⟩
  by_cases hji : j = i
  · subst hji
    exact settled_steps hs.sound.inv hst p hset hlog
  · rw [hf.log j hji]
    exact hlog

/-- A committed entry lies in a settled prefix of the whole log. -/
theorem committed_anchored (hs : Sim n c a) (hc : Commits n c a) (j : ℕ) (x : ℤ) (e : LogEntry C)
    (hx : x ≤ (c.servers j).commitIndex) (he : Retains (c.servers j) x e) :
    ∃ (k : ℕ) (p : List (LogEntry C)), x = k ∧ p[k]? = some e ∧ Anchored n j p c a := by
  obtain ⟨k,rfl,hk⟩ := retains_whole c a hs j x e he
  obtain ⟨m,hm,-,hset⟩ := hc.peer j
  refine ⟨k,(a.log j).take m,rfl,?_,hc, List.take_prefix _ _,hset⟩
  rw [List.getElem?_take, if_pos (by omega), hk]

theorem whole_retained (hs : Sim n c a) (j k : ℕ) (e : LogEntry C)
    (he : (a.log j)[k]? = some e) :
    (k:ℤ) ≤ (c.servers j).lastIncludedIndex ∨ Retains (c.servers j) k e := by
  obtain ⟨b,w⟩ := (hs.peer j).window
  rw [Retains, w.included]
  rcases lt_or_ge k b with hkb | hkb
  · exact Or.inl (by omega)
  · exact Or.inr ⟨by omega,log_entry_get w k e hkb he⟩

theorem prefix_entry (p l : List (LogEntry C)) (h : p <+: l) (k : ℕ) (e : LogEntry C)
    (he : p[k]? = some e) : l[k]? = some e := by
  obtain ⟨r,rfl⟩ := h
  rw [List.getElem?_append_left (List.getElem?_eq_some_iff.mp he).1, he]

/-- What another server commits at an index is the entry settled there. -/
theorem committed_entry (hs : Sim n c a) (hc : Commits n c a) (i k t : ℕ)
    (p : List (LogEntry C)) (e : LogEntry C) (hset : Settled (majorities n) a t p)
    (hp : p[k]? = some e) (hk : (k:ℤ) ≤ (c.servers i).commitIndex) :
    (a.log i)[k]? = some e := by
  obtain ⟨m,hm,hlen,hmine⟩ := hc.peer i
  obtain ⟨d,hd⟩ : ∃ d, (a.log i)[k]? = some d :=
    ⟨_,List.getElem?_eq_getElem (show k < (a.log i).length by omega)⟩
  have hd' : ((a.log i).take m)[k]? = some d := by
    rw [List.getElem?_take, if_pos (by omega), hd]
  rw [hd, settled_agree hs.sound.inv t (a.term i) p _ hset hmine k e d hp hd']

/-- In every guarded run an entry that a server has committed stays: at every
later moment that server, every server that has committed the index and every
leader of no earlier term has the entry or has discarded it into a snapshot. -/
theorem committed_entry_stays (n : ℕ) (es fs : List (Event C)) (c c' : Cluster C)
    (hm : Meets (step n) (fun c e => PollsOnly c e ∧ Covers c e) (RaftCluster.initial C n)
      (es ++ fs))
    (h : exec n (RaftCluster.initial C n) es = some c) (h' : exec n c fs = some c')
    (j : ℕ) (x : ℤ) (e : LogEntry C) (hx : x ≤ (c.servers j).commitIndex)
    (he : Retains (c.servers j) x e) (i : ℕ)
    (hi : i = j ∨ x ≤ (c'.servers i).commitIndex ∨ ((c'.servers i).state = .leader ∧
      (c.servers j).currentTerm ≤ (c'.servers i).currentTerm)) :
    x ≤ (c'.servers i).lastIncludedIndex ∨ Retains (c'.servers i) x e := by
  rw [meets_append] at hm
  obtain ⟨a,-,hs,hcom⟩ := sim_run _ (Commits n) commits_carried es (sim_initial C n)
    (commits_initial C n) hm.1 h
  obtain ⟨k,p,rfl,hp,hanch⟩ := committed_anchored hs hcom j x e hx he
  obtain ⟨a',hg,hs',hcom',hlog,-⟩ := sim_run _ (Anchored n j p) (anchored_carried j p) fs hs hanch
    (hm.2 c h) h'
  have hset := settled_grows hg (a.term j) (a.term j) p le_rfl hanch.2.2
  apply whole_retained hs' i k e
  rcases hi with rfl | hcommit | ⟨hlead,hterm⟩
  · exact prefix_entry p _ hlog k e hp
  · exact committed_entry hs' hcom' i k (a.term j) p e hset hp hcommit
  · have hled := (hs'.peer i).leader hlead
    rw [(hs.peer j).term, (hs'.peer i).term] at hterm
    rw [hs'.sound.inv.log_lead i hled]
    exact prefix_entry p _ (settled_lead hs'.sound.inv _ _ p hset hterm (by simp [hled])) k e hp

/-- The follower that holds the committed entry restarts, is elected and
appends an entry of its own. -/
def restartedFollower : List (Event ℕ) :=
  [.appendMissingEntries 0 1 1, .appendEntries 1, .crash 1, .election 1, .requestVote 1 2,
    .requestVoteReply 1 2, .countVote 1 2, .gatherVotes 1, .concludeElection 1,
    .start 1 (some 9), .appendMissingEntries 1 2 0, .appendEntries 2]

theorem committed_entry_stays_restarted : ∃ c c',
    RaftCluster.exec 3 (RaftCluster.initial ℕ 3)
      (replicated ++ [.handleAppendReply 0, .advanceCommitIndex 0]) = some c ∧
    RaftCluster.exec 3 c restartedFollower = some c' ∧ (c'.servers 1).state = .leader ∧
    (c'.servers 1).commitIndex = -1 ∧ Retains (c'.servers 1) 0 ⟨0,1,some 7⟩ := by
  obtain ⟨c,hc⟩ := Option.isSome_iff_exists.mp (by decide +kernel :
    (RaftCluster.exec 3 (RaftCluster.initial ℕ 3)
      (replicated ++ [.handleAppendReply 0, .advanceCommitIndex 0])).isSome = true)
  have hheld : ∀ d ∈ RaftCluster.exec 3 (RaftCluster.initial ℕ 3)
      (replicated ++ [.handleAppendReply 0, .advanceCommitIndex 0]),
      0 ≤ (d.servers 0).commitIndex ∧ Retains (d.servers 0) 0 ⟨0,1,some 7⟩ ∧
      (RaftCluster.exec 3 d restartedFollower).isSome = true ∧
      ∀ d' ∈ RaftCluster.exec 3 d restartedFollower, (d'.servers 1).state = .leader ∧
        (d.servers 0).currentTerm ≤ (d'.servers 1).currentTerm ∧
        (d'.servers 1).commitIndex = -1 ∧ (d'.servers 1).lastIncludedIndex = -1 := by
    decide +kernel
  obtain ⟨hcommit,hentry,hruns,hlater⟩ := hheld c hc
  obtain ⟨c',hc'⟩ := Option.isSome_iff_exists.mp hruns
  obtain ⟨hlead,hterm,hnone,hlast⟩ := hlater c' hc'
  refine ⟨c,c',hc,hc',hlead,hnone,?_⟩
  exact (committed_entry_stays 3 _ restartedFollower c c' (by decide +kernel) hc hc' 0 0 _ hcommit
    hentry 1 (Or.inr (Or.inr ⟨hlead,hterm⟩))).resolve_left (by omega)

end Mitdist.CommittedLog
