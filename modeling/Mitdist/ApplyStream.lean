import Mitdist.RaftIndices
import Mathlib.Data.List.Chain

/-!
# The stream of messages on the apply channel

The messages of one instance, between `Make` and its crash, continue where
the one before stopped: the index of the last message is one above the last
applied index. Commands advance it by one. A snapshot sets it to the snapshot's
index, which is a step forward only if the snapshot was ahead of what had been
applied when it was installed.
-/

set_option autoImplicit false

namespace Mitdist.ApplyStream
open Mitdist.RaftPeer Mitdist.RaftHandlers Mitdist.RaftCluster Mitdist.RaftOutcomes
open Mitdist.RaftInstance Mitdist.RaftIndices Mitdist.Persistence Mitdist.TransitionSystem

/-- `made` is the last included index at `Make`, and `sent` are the messages
put on the apply channel since then. -/
structure Instance (C : Type) where
  rf : Raft C
  made : ℤ
  sent : List (ApplyMsg C)
  deriving DecidableEq

variable {C : Type}

def launch (rf : Raft C) : Instance C := ⟨rf,rf.lastIncludedIndex,[]⟩

def record (x : Instance C) (rf : Raft C) (msg : Option (ApplyMsg C)) : Section C → Instance C
  | .crash => launch rf
  | _ => { x with rf := rf, sent := x.sent ++ msg.toList }

def step (x : Instance C) (s : Section C) : Option (Instance C) := do
  let (rf, msg) ← run x.rf s
  return record x rf msg s

def messageIndex (m : ApplyMsg C) : ℤ := if m.snapshotValid then m.snapshotIndex else m.commandIndex

/-- A snapshot that the instance would install is ahead of what was applied,
unless nothing was sent yet. -/
def Fresh (x : Instance C) : Section C → Prop
  | .installSnapshot args => x.sent = [] ∨ x.rf.lastApplied < args.lastIncludedIndex ∨
      args.term < x.rf.currentTerm ∨ args.lastIncludedIndex ≤ x.rf.lastIncludedIndex
  | _ => True

instance decidableFresh [DecidableEq C] (x : Instance C) : ∀ s : Section C, Decidable (Fresh x s)
  | .installSnapshot args => inferInstanceAs (Decidable (x.sent = [] ∨
      x.rf.lastApplied < args.lastIncludedIndex ∨ args.term < x.rf.currentTerm ∨
      args.lastIncludedIndex ≤ x.rf.lastIncludedIndex))
  | .start _ | .snapshot _ _ | .requestVote _ | .appendEntries _ | .handleHigherTerm _
  | .handleAppendReply _ _ _ | .election | .concludeElection _ _ | .advanceCommitIndex | .apply
  | .crash => .isTrue trivial

def Continues (m m' : ApplyMsg C) : Prop :=
  messageIndex m < messageIndex m' ∧ (m'.commandValid = true → m'.commandIndex = messageIndex m + 1)

structure Forward (x : Instance C) : Prop where
  kept : Kept x.rf
  ordered : Ordered x.rf
  first : x.sent = [] → x.rf.lastApplied = x.made
  last : ∀ m, x.sent.getLast? = some m → messageIndex m = x.rf.lastApplied + 1
  pending : x.rf.snapshotInstalled = true →
    x.sent = [] ∨ x.rf.lastApplied < x.rf.lastIncludedIndex
  chain : x.sent.IsChain Continues
  head : ∀ m, x.sent.head? = some m → m.commandValid = true → m.commandIndex = x.made + 1 + 1

theorem forward_launch (rf : Raft C) (hk : Kept rf) (ho : Ordered rf)
    (hl : rf.lastApplied = rf.lastIncludedIndex) : Forward (launch rf) where
  kept := hk
  ordered := ho
  first _ := hl
  last m hm := by simp [launch] at hm
  pending _ := Or.inl rfl
  chain := .nil
  head m hm := by simp [launch] at hm

/-- A section that sends nothing and applies nothing keeps the stream. -/
theorem forward_silent (x : Instance C) (h : Forward x) (rf : Raft C) (hk : Kept rf)
    (ho : Ordered rf) (ha : rf.lastApplied = x.rf.lastApplied)
    (hp : rf.snapshotInstalled = true → x.sent = [] ∨ rf.lastApplied < rf.lastIncludedIndex) :
    Forward { x with rf := rf, sent := x.sent ++ [] } where
  kept := hk
  ordered := ho
  first hs := ha.trans (h.first (by simpa using hs))
  last m hm := by
    rw [ha]
    exact h.last m (by simpa using hm)
  pending := by simpa using hp
  chain := by simpa using h.chain
  head := by simpa using h.head

/-- One more message, which continues the stream. -/
theorem forward_sent (x : Instance C) (h : Forward x) (rf : Raft C) (m : ApplyMsg C) (hk : Kept rf)
    (ho : Ordered rf) (hm : messageIndex m = rf.lastApplied + 1)
    (hp : rf.snapshotInstalled = false)
    (hup : x.sent = [] ∨ x.rf.lastApplied < rf.lastApplied)
    (hc : m.commandValid = true → m.commandIndex = x.rf.lastApplied + 1 + 1) :
    Forward { x with rf := rf, sent := x.sent ++ (some m).toList } where
  kept := hk
  ordered := ho
  first hs := by simp at hs
  last d hd := by
    have : m = d := by simpa using hd
    exact this ▸ hm
  pending hs := by simp [hp] at hs
  chain := by
    refine List.isChain_append.mpr ⟨h.chain,.singleton m,fun d hd e he => ?_⟩
    have hme : m = e := by simpa using he
    have hl := h.last d hd
    have hne : x.sent ≠ [] := by
      rintro hs
      simp [hs] at hd
    subst hme
    refine ⟨?_,fun hv => ?_⟩
    · rw [hl, hm]
      have := hup.resolve_left hne
      omega
    · rw [hl, hc hv]
  head d hd hv := by
    cases hs : x.sent with
    | nil =>
      have : m = d := by simpa [hs] using hd
      rw [← h.first hs, ← this]
      exact hc (this ▸ hv)
    | cons y ys => exact h.head d (by simpa [hs] using hd) hv

theorem forward_step (x x' : Instance C) (s : Section C) (h : Forward x)
    (hs : InOrder s ∧ Fresh x s) (hx : step x s = some x') : Forward x' := by
  simp only [step, Option.bind_eq_bind, Option.bind_eq_some_iff, Option.pure_def,
    Option.some.injEq] at hx
  obtain ⟨⟨rf,msg⟩,hrun,rfl⟩ := hx
  have hran := run_ran s msg hrun
  have hk := kept_section h.kept s msg hran
  have ho := ordered_section h.kept h.ordered s msg hs.1 hran
  by_cases ha : s = .apply
  · subst ha
    cases hran with
    | apply _ msg _ he =>
      rcases apply_outcome msg he with ⟨hp,rfl,rfl⟩ | ⟨hp,rfl,e,-,rfl⟩
      · exact forward_sent x h _ _ hk ho rfl rfl (h.pending hp) (fun hv => by simp at hv)
      · exact forward_sent x h _ _ hk ho rfl hp (Or.inr (Int.lt_succ _)) (fun _ => rfl)
  by_cases hc : s = .crash
  · subst hc
    cases hran with
    | crash => exact forward_launch _ hk ho rfl
  obtain ⟨rfl,happ,hcase⟩ := moved_section h.ordered s msg hran ha hc
  have hrec : record x rf none s = { x with rf := rf, sent := x.sent ++ [] } := by
    cases s <;> first | rfl | exact absurd rfl hc
  rw [hrec]
  refine forward_silent x h rf hk ho happ (fun hp => ?_)
  rcases hcase with ⟨hi,hs⟩ | ⟨index,bytes,-,hlow,hi,hs⟩ | ⟨args,rfl,ht,hlow,hi,-⟩
  · rw [happ, hi]
    exact h.pending (hs ▸ hp)
  · exact (h.pending (hs ▸ hp)).imp_right (fun hlt => by omega)
  · rcases hs.2 with hsent | hahead | hold | hold
    · exact Or.inl hsent
    · exact Or.inr (by omega)
    · exact absurd ht (by omega)
    · exact absurd hlow (by omega)

/-- In every run in which no instance installs a snapshot that is behind what
it has applied, the messages of every instance have strictly increasing
indices, and every command follows the message before it without a gap. -/
theorem apply_stream_forward (n me : ℕ) (ss : List (Section C)) (x : Instance C)
    (hm : Meets step (fun x s => InOrder s ∧ Fresh x s) (launch (make n me {})) ss)
    (h : exec step (launch (make n me {})) ss = some x) :
    (x.sent.map messageIndex).Pairwise (· < ·) ∧
    x.sent.IsChain (fun m m' => m'.commandValid = true → m'.commandIndex = messageIndex m + 1) ∧
    ∀ m, x.sent.head? = some m → m.commandValid = true → m.commandIndex = x.made + 1 + 1 := by
  have h0 : Forward (launch (make n me ({} : Persister C))) :=
    forward_launch _ (kept_make n me {}) ⟨rfl,fun k e he => by simp [make, readPersist] at he⟩ rfl
  have hf := exec_invariant step _ Forward (fun s e s' => forward_step s s' e) ss _ x h0 hm h
  refine ⟨?_,hf.chain.imp (fun _ _ hc => hc.2),hf.head⟩
  rw [← List.isChain_iff_pairwise, List.isChain_map]
  exact hf.chain.imp (fun _ _ hc => hc.1)

def follower : Raft ℕ := make 3 0 {}

def request (prevLogIndex : ℤ) (prevLogTerm : ℕ) (entries : List (LogEntry ℕ)) (commit : ℤ) :
    Section ℕ :=
  .appendEntries ⟨1,1,prevLogIndex,prevLogTerm,entries,commit⟩

def timelyInstall : List (Section ℕ) :=
  [request (-1) 0 [⟨0,1,some 7⟩,⟨1,1,some 8⟩] 1, .apply, .installSnapshot ⟨1,1,1,1,[1]⟩,
    request 1 1 [⟨2,1,some 9⟩] 2, .apply, .apply]

theorem apply_stream_forward_timely : ∃ x, exec step (launch follower) timelyInstall = some x ∧
    x.sent.map messageIndex = [1, 2, 3] ∧ (x.sent.map messageIndex).Pairwise (· < ·) :=
  ⟨_,rfl,by decide +kernel,(apply_stream_forward 3 0 timelyInstall _ (by decide +kernel) rfl).1⟩

/-- A snapshot of the first entry that arrives after two entries were applied. -/
def delayedInstall : List (Section ℕ) :=
  [request (-1) 0 [⟨0,1,some 7⟩,⟨1,1,some 8⟩] 1, .apply, .apply, .installSnapshot ⟨1,1,0,1,[1]⟩,
    request 1 1 [⟨2,1,some 9⟩] 2, .apply, .apply]

theorem apply_stream_moves_back : ∃ x, Meets step (fun _ s => InOrder s) (launch follower)
      delayedInstall ∧ exec step (launch follower) delayedInstall = some x ∧
    x.sent.map messageIndex = [1, 2, 1, 2] ∧ ¬ (x.sent.map messageIndex).Pairwise (· < ·) :=
  ⟨_,by decide +kernel,rfl,by decide +kernel,by decide +kernel⟩

end Mitdist.ApplyStream
