import Mitdist.CommitSafety

/-!
# State machine safety

Every command on an apply channel was read from a settled prefix, unless the
apply loop read the placeholder that stands for the last discarded entry. Two
commands with one index are therefore equal, whichever servers applied them
and whatever restarts lie between.
-/

set_option autoImplicit false

namespace Mitdist.StateMachineSafety
open Mitdist.RaftPeer Mitdist.RaftHandlers Mitdist.RaftWindow Mitdist.RaftCluster
open Mitdist.RaftOutcomes Mitdist.RaftEvents Mitdist.LeaderProtocol Mitdist.RaftRelation
open Mitdist.RaftSimulation Mitdist.RaftSafety Mitdist.MatchIndex Mitdist.CommitSafety
open Mitdist.TransitionSystem

variable {C : Type} {n : ℕ} {c c' : Cluster C} {a a' : Past C}

/-- The command branch of the apply loop does not read at the index of the
last discarded entry. -/
def Reads (c : Cluster C) : Event C → Prop
  | .apply i => (c.servers i).snapshotInstalled = true ∨
      (c.servers i).lastApplied + 1 ≠ (c.servers i).lastIncludedIndex
  | _ => True

instance decidableReads (c : Cluster C) : ∀ e, Decidable (Reads c e)
  | .apply i => inferInstanceAs (Decidable ((c.servers i).snapshotInstalled = true ∨
      (c.servers i).lastApplied + 1 ≠ (c.servers i).lastIncludedIndex))
  | .election _ | .requestVote _ _ | .requestVoteReply _ _ | .requestVoteFailed _ _
  | .countVote _ _ | .gatherVotes _ | .concludeElection _ | .appendMissingEntries _ _ _
  | .appendEntries _ | .handleAppendReply _ | .installSnapshot _ | .installSnapshotReply _
  | .start _ _ | .advanceCommitIndex _ | .snapshot _ _ _ | .crash _ => .isTrue trivial

def Guarded (c : Cluster C) (e : Event C) : Prop := (PollsOnly c e ∧ Covers c e) ∧ Reads c e

instance decidableGuarded (c : Cluster C) (e : Event C) : Decidable (Guarded c e) :=
  inferInstanceAs (Decidable (_ ∧ _))

/-- The message carries a command of a settled prefix. -/
def Delivered (n : ℕ) (a : Past C) (m : ApplyMsg C) : Prop :=
  ∃ (t k : ℕ) (q : List (LogEntry C)) (e : LogEntry C), Settled (majorities n) a t q ∧
    q[k]? = some e ∧ m.commandIndex = (k:ℤ)+1 ∧ m.command = e.command

theorem delivered_grows (hg : Grows a a') (m : ApplyMsg C) (h : Delivered n a m) :
    Delivered n a' m := by
  obtain ⟨t,k,q,e,hs,hr⟩ := h
  exact ⟨t,k,q,e,settled_grows hg t t q le_rfl hs,hr⟩

theorem runs_applied (e : Event C) (hr : Runs n c e c') (x : ℕ × ApplyMsg C) (h : x ∈ c'.applied) :
    x ∈ c.applied ∨ ∃ rf, e = .apply x.1 ∧
      (c.servers x.1).lastApplied < (c.servers x.1).commitIndex ∧
      apply (c.servers x.1) = .ok (rf, x.2) := by
  cases hr with
  | apply i rf msg hi hs he =>
    rcases List.mem_append.mp h with h | h
    · exact Or.inl h
    · rw [List.mem_singleton.mp h]
      exact Or.inr ⟨rf,rfl,hs,he⟩
  | appendMissingEntries i term server request hi hs hne he =>
    rcases request with _ | _ | _ <;> exact Or.inl h
  | _ => exact Or.inl h

theorem apply_delivers (hs : Sim n c a) (hc : Commits n c a) (i : ℕ) (rf : Raft C) (m : ApplyMsg C)
    (hr : Reads c (.apply i)) (hlt : (c.servers i).lastApplied < (c.servers i).commitIndex)
    (he : apply (c.servers i) = .ok (rf, m)) (hv : m.commandValid = true) : Delivered n a m := by
  rcases apply_outcome m he with ⟨-,-,rfl⟩ | ⟨hinst,-,e,hentry,rfl⟩
  · simp at hv
  · obtain ⟨b,w⟩ := (hs.peer i).window
    have hne := hr.resolve_left (by simp [hinst])
    obtain ⟨k,hk,-,hset⟩ := hc.peer i
    rcases log_entry_cases w _ e hentry with ⟨hx,-⟩ | ⟨p,hp,-,hpe⟩
    · exact absurd (hx.trans w.included.symm) hne
    · refine ⟨a.term i,p,(a.log i).take k,e,hset,?_,by simp only [hp],rfl⟩
      rw [List.getElem?_take, if_pos (by omega), hpe]

def Safe (n : ℕ) (c : Cluster C) (a : Past C) : Prop :=
  Commits n c a ∧ ∀ x ∈ c.applied, x.2.commandValid = true → Delivered n a x.2

theorem safe_carried : Carried (C := C) n Guarded (Safe n) := by
  intro c e c' i a a' hs h hok hruns hst hs' heff
  have hg := (steps_inv hs.sound.inv hst).2.1
  refine ⟨commits_carried c e c' i a a' hs h.1 hok.1 hruns hst hs' heff,fun x hx hv => ?_⟩
  rcases runs_applied e hruns x hx with hx | ⟨rf,rfl,hlt,he⟩
  · exact delivered_grows hg x.2 (h.2 x hx hv)
  · exact delivered_grows hg x.2 (apply_delivers hs h.1 x.1 rf x.2 hok.2 hlt he hv)

/-- In every guarded run, commands that are applied under one index are equal. -/
theorem state_machine_safety (n : ℕ) (es : List (Event C)) (c : Cluster C)
    (hm : Meets (step n) Guarded (RaftCluster.initial C n) es)
    (h : exec n (RaftCluster.initial C n) es = some c) (A B : ℕ) (m m' : ApplyMsg C)
    (hA : (A, m) ∈ c.applied) (hB : (B, m') ∈ c.applied) (hv : m.commandValid = true)
    (hv' : m'.commandValid = true) (hi : m.commandIndex = m'.commandIndex) :
    m.command = m'.command := by
  obtain ⟨a,-,hs,hsafe⟩ := sim_run Guarded (Safe n) safe_carried es (sim_initial C n)
    ⟨commits_initial C n,fun x hx => by simp [RaftCluster.initial] at hx⟩ hm h
  obtain ⟨t,k,q,e,hset,hk,hidx,hcmd⟩ := hsafe.2 _ hA hv
  obtain ⟨t',k',q',e',hset',hk',hidx',hcmd'⟩ := hsafe.2 _ hB hv'
  obtain rfl : k = k' := by
    simp only at hidx hidx'
    omega
  have hee : e = e' := settled_agree hs.sound.inv t t' q q' hset hset' k e e' hk hk'
  simp only at hcmd hcmd'
  rw [hcmd, hcmd', hee]

/-- The leader and one follower apply the replicated command. -/
def appliedTwice : List (Event ℕ) :=
  replicated ++ [.handleAppendReply 0, .advanceCommitIndex 0, .apply 0,
    .appendMissingEntries 0 1 1, .appendEntries 1, .apply 1]

def command (index : ℤ) (c : ℕ) : ApplyMsg ℕ :=
  { commandValid := true, command := some c, commandIndex := index }

theorem state_machine_safety_applied : ∃ c,
    RaftCluster.exec 3 (RaftCluster.initial ℕ 3) appliedTwice = some c ∧
    (0, command 1 7) ∈ c.applied ∧
    ∀ m, (1, m) ∈ c.applied → m.commandValid = true → m.commandIndex = 1 →
      m.command = some 7 := by
  obtain ⟨c,hc⟩ := Option.isSome_iff_exists.mp (by decide +kernel :
    (RaftCluster.exec 3 (RaftCluster.initial ℕ 3) appliedTwice).isSome = true)
  have h0 : ∀ d ∈ RaftCluster.exec 3 (RaftCluster.initial ℕ 3) appliedTwice,
      (0, command 1 7) ∈ d.applied := by
    decide +kernel
  exact ⟨c,hc,h0 c hc,fun m hm hv hi => state_machine_safety 3 appliedTwice c (by decide +kernel) hc
    1 0 m (command 1 7) hm (h0 c hc) hv rfl hi⟩

/-- A follower commits and applies an entry that two of five servers have. The
leader of the next term does not have it and sends another one for the same
index, which a second follower commits and applies. -/
def appliedApart : List (Event ℕ) :=
  followerPolls ++ [.advanceCommitIndex 1, .apply 1, .election 2, .requestVote 1 3,
    .requestVote 1 4, .requestVoteReply 1 3, .requestVoteReply 1 4, .countVote 1 3,
    .countVote 1 4, .gatherVotes 1, .concludeElection 1, .start 2 (some 9),
    .appendMissingEntries 2 2 3, .appendEntries 1, .advanceCommitIndex 3, .apply 3]

theorem applied_differ : ∃ c,
    RaftCluster.exec 5 (RaftCluster.initial ℕ 5) appliedApart = some c ∧
    (1, command 1 7) ∈ c.applied ∧ (3, command 1 9) ∈ c.applied :=
  ⟨_,rfl,by decide +kernel,by decide +kernel⟩

end Mitdist.StateMachineSafety
