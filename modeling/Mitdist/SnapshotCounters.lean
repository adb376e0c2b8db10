import Mitdist.KvServer
import Mitdist.RaftHandlers
import Mitdist.TransitionSystem
import Mathlib.Algebra.Order.Group.Int

/-!
# The counters of a server's snapshots

A server counts what it has executed and what its last snapshot covers. An
executed command, a restored snapshot and a poll of the snapshot loop move the
two counters. A restored snapshot moves them to the command index of its
message, so they follow the restored tables where a message carries the
snapshot's index there too.
-/

set_option autoImplicit false

namespace Mitdist.SnapshotCounters
open Mitdist.RaftPeer Mitdist.RaftOutcomes Mitdist.KvServer Mitdist.TransitionSystem

/-- A message of the apply channel, or a poll of the snapshot loop. -/
inductive Event where
  | message (m : ApplyMsg Op)
  | initSnapshot
  deriving DecidableEq, Repr

section
variable (decode : Bytes → Option (Requests × Values))

def step (kv : KVServer) : Event → Option KVServer
  | .message m => (apply decode kv m).toOption.map Prod.fst
  | .initSnapshot =>
    match initSnapshot kv with
    | none => some kv
    | some (kv', _) => some kv'

end

def IsSnapshot (m : ApplyMsg Op) : Prop := m.commandValid = false ∧ m.snapshotValid = true

/-- A snapshot that is going to be restored is not empty, and its message has
the snapshot's index as its command index too. -/
def Labelled (kv : KVServer) : Event → Prop
  | .message m => m.commandValid = false → kv.lastExecutedIndex < m.snapshotIndex →
      m.commandIndex = m.snapshotIndex ∧ m.snapshot ≠ []
  | .initSnapshot => True

instance decidableLabelled (kv : KVServer) : ∀ e, Decidable (Labelled kv e)
  | .message _ => inferInstanceAs (Decidable (_ → _ → _ ∧ _))
  | .initSnapshot => .isTrue trivial

def Behind (kv : KVServer) : Prop := kv.lastSnapshotIndex ≤ kv.lastExecutedIndex

section
variable {decode : Bytes → Option (Requests × Values)} {kv kv' : KVServer}

theorem execute_counters (m : ApplyMsg Op) (h : executeIfNew kv m = .ok kv') :
    kv.lastExecutedIndex ≤ kv'.lastExecutedIndex ∧
      kv'.lastSnapshotIndex = kv.lastSnapshotIndex := by
  rw [executeIfNew] at h
  split at h
  · cases h
  · split_ifs at h
    · obtain rfl := Except.ok.inj h
      exact ⟨le_rfl,rfl⟩
    · rw [bind_ok] at h
      obtain ⟨⟨values,r,e⟩,-,h⟩ := h
      obtain rfl := Except.ok.inj h
      exact ⟨le_max_right _ _,rfl⟩

theorem restore_counters (snapshot : Bytes) (lastIndex : ℤ) (hne : snapshot ≠ [])
    (h : setState decode kv snapshot lastIndex = .ok kv') :
    kv'.lastExecutedIndex = lastIndex ∧ kv'.lastSnapshotIndex = lastIndex := by
  have hlen : ¬ snapshot.length < 1 := by
    have := List.length_pos_iff.mpr hne
    omega
  rw [setState, if_neg hlen] at h
  split at h
  · cases h
  · obtain rfl := Except.ok.inj h
    exact ⟨rfl,rfl⟩

/-- A message is a command, a snapshot that is restored, or one that is not. -/
theorem message_cases (m : ApplyMsg Op) (hl : Labelled kv (.message m))
    (h : step decode kv (.message m) = some kv') :
    kv.lastExecutedIndex ≤ kv'.lastExecutedIndex ∧
        kv'.lastSnapshotIndex = kv.lastSnapshotIndex ∧ m.commandValid = true ∨
      IsSnapshot m ∧ kv.lastExecutedIndex < m.snapshotIndex ∧
        kv'.lastExecutedIndex = m.snapshotIndex ∧ kv'.lastSnapshotIndex = m.snapshotIndex ∨
      IsSnapshot m ∧ ¬ kv.lastExecutedIndex < m.snapshotIndex ∧ kv' = kv := by
  simp only [step, Option.map_eq_some_iff, to_option_some] at h
  obtain ⟨⟨kv1,n⟩,h,rfl⟩ := h
  rw [apply] at h
  split_ifs at h with hcommand hsnapshot hnew
  · obtain ⟨hindex,hne⟩ := hl hcommand hnew
    rw [bind_ok] at h
    obtain ⟨kv2,h2,h⟩ := h
    obtain ⟨rfl,-⟩ := Prod.mk.inj (Except.ok.inj h)
    obtain ⟨h3,h4⟩ := restore_counters m.snapshot m.commandIndex hne h2
    exact Or.inr (Or.inl ⟨⟨hcommand,by simpa using hsnapshot⟩,hnew,h3.trans hindex,
      h4.trans hindex⟩)
  · obtain ⟨rfl,-⟩ := Prod.mk.inj (Except.ok.inj h)
    exact Or.inr (Or.inr ⟨⟨hcommand,by simpa using hsnapshot⟩,hnew,rfl⟩)
  · rw [bind_ok] at h
    obtain ⟨kv2,h2,h⟩ := h
    obtain ⟨rfl,-⟩ := Prod.mk.inj (Except.ok.inj h)
    obtain ⟨h3,h4⟩ := execute_counters m h2
    exact Or.inl ⟨h3,h4,by simpa using hcommand⟩

theorem step_counters (hb : Behind kv) (e : Event) (hl : Labelled kv e)
    (h : step decode kv e = some kv') :
    Behind kv' ∧ kv.lastExecutedIndex ≤ kv'.lastExecutedIndex ∧
      kv.lastSnapshotIndex ≤ kv'.lastSnapshotIndex := by
  rw [Behind] at hb ⊢
  cases e with
  | message m =>
    rcases message_cases m hl h with ⟨h1,h2,-⟩ | ⟨-,hnew,h1,h2⟩ | ⟨-,-,rfl⟩ <;> omega
  | initSnapshot =>
    simp only [step, initSnapshot] at h
    split_ifs at h
    · obtain rfl := Option.some.inj h
      exact ⟨le_rfl,le_rfl,hb⟩
    · obtain rfl := Option.some.inj h
      exact ⟨hb,le_rfl,le_rfl⟩

/-- The counters between two states of a run. -/
theorem run_counters (es : List Event) (hb : Behind kv) (hm : Meets (step decode) Labelled kv es)
    (h : exec (step decode) kv es = some kv') :
    Behind kv' ∧ kv.lastExecutedIndex ≤ kv'.lastExecutedIndex ∧
      kv.lastSnapshotIndex ≤ kv'.lastSnapshotIndex := by
  apply exec_invariant (step decode) Labelled (fun x => Behind x ∧
    kv.lastExecutedIndex ≤ x.lastExecutedIndex ∧ kv.lastSnapshotIndex ≤ x.lastSnapshotIndex)
    ?_ es kv kv' ⟨hb,le_rfl,le_rfl⟩ hm h
  intro x e x' hx hl hstep
  obtain ⟨h1,h2,h3⟩ := step_counters hx.1 e hl hstep
  exact ⟨h1,hx.2.1.trans h2,hx.2.2.trans h3⟩

theorem skipped (m : ApplyMsg Op) (hs : IsSnapshot m)
    (hold : m.snapshotIndex ≤ kv.lastExecutedIndex) : step decode kv (.message m) = some kv := by
  simp [step, apply, hs.1, hs.2, not_lt.mpr hold, Except.toOption]

end

/-- In every run of messages and polls in which restored snapshots carry their
index as command index, the two counters never decrease. A snapshot beyond the
executed index moves both to its index, and no later message with a snapshot
up to that index changes the server. -/
theorem counters_track (decode : Bytes → Option (Requests × Values)) (es es' : List Event)
    (kv kv' : KVServer) (hm : Meets (step decode) Labelled startKVServer (es ++ es'))
    (h : exec (step decode) startKVServer es = some kv)
    (h' : exec (step decode) kv es' = some kv') :
    kv.lastExecutedIndex ≤ kv'.lastExecutedIndex ∧ kv.lastSnapshotIndex ≤ kv'.lastSnapshotIndex ∧
      ∀ m rest, es' = .message m::rest → IsSnapshot m → kv.lastExecutedIndex < m.snapshotIndex →
        (∃ kv₁, step decode kv (.message m) = some kv₁ ∧
          kv₁.lastExecutedIndex = m.snapshotIndex ∧ kv₁.lastSnapshotIndex = m.snapshotIndex) ∧
        ∀ m', IsSnapshot m' → m'.snapshotIndex ≤ m.snapshotIndex →
          step decode kv' (.message m') = some kv' := by
  obtain ⟨hm1,hm2⟩ := (meets_append (step decode) Labelled es es' startKVServer).mp hm
  have hm2 := hm2 kv h
  have hb := (run_counters es le_rfl hm1 h).1
  obtain ⟨-,hexec,hsnap⟩ := run_counters es' hb hm2 h'
  refine ⟨hexec,hsnap,?_⟩
  rintro m rest rfl hs hnew
  obtain ⟨kv₁,hstep,hrest⟩ := exec_cons_some (step decode) kv kv' _ rest h'
  obtain ⟨h1,h2⟩ : kv₁.lastExecutedIndex = m.snapshotIndex ∧
      kv₁.lastSnapshotIndex = m.snapshotIndex := by
    rcases message_cases m hm2.1 hstep with ⟨-,-,hc⟩ | ⟨-,-,h1,h2⟩ | ⟨-,hold,-⟩
    · rw [hs.1] at hc
      cases hc
    · exact ⟨h1,h2⟩
    · exact absurd hnew hold
  refine ⟨⟨kv₁,hstep,h1,h2⟩,fun m' hs' hle => ?_⟩
  have hb₁ := (step_counters hb _ hm2.1 hstep).1
  have hlater := (run_counters rest hb₁ (hm2.2 kv₁ hstep) hrest).2.1
  exact skipped m' hs' (by omega)

def firstCommand : ApplyMsg Op :=
  { commandValid := true, command := some ⟨.put,["k", "a"],1,0⟩, commandIndex := 1 }

/-- The tables of a later and of an earlier snapshot. -/
def readTables (b : Bytes) : Option (Requests × Values) :=
  if b = [1] then some (Finmap.singleton 1 ⟨4,"",.ok⟩, Finmap.singleton "k" "later")
  else some (Finmap.singleton 1 ⟨2,"",.ok⟩, Finmap.singleton "k" "earlier")

/-- A snapshot up to index five that has its index in both places. -/
def labelledSnapshot : ApplyMsg Op :=
  { commandIndex := 5, snapshotValid := true, snapshot := [1], snapshotTerm := 1
    snapshotIndex := 5 }

theorem counters_track_labelled : ∃ kv kv',
    exec (step readTables) startKVServer [.message firstCommand, .initSnapshot] = some kv ∧
    exec (step readTables) kv [.message labelledSnapshot, .initSnapshot] = some kv' ∧
    kv.lastExecutedIndex ≤ kv'.lastExecutedIndex ∧
    kv.lastSnapshotIndex ≤ kv'.lastSnapshotIndex ∧
    ∃ kv₁, step readTables kv (.message labelledSnapshot) = some kv₁ ∧
      kv₁.lastExecutedIndex = 5 ∧ kv₁.lastSnapshotIndex = 5 := by
  have h := counters_track readTables [.message firstCommand, .initSnapshot]
    [.message labelledSnapshot, .initSnapshot] _ _ (by decide +kernel) rfl rfl
  exact ⟨_,_,rfl,rfl,h.1,h.2.1,(h.2.2 _ _ rfl ⟨rfl,rfl⟩ (by decide +kernel)).1⟩

/-- A peer that has installed the snapshot up to index five. -/
def installedPeer : Raft Op :=
  { make 3 1 {} with
    lastIncludedIndex := 4
    lastIncludedTerm := 1
    baseIndex := 5
    commitIndex := 4
    lastApplied := 0
    snapshot := [1]
    snapshotInstalled := true }

def earlierSnapshot : ApplyMsg Op :=
  { snapshotValid := true, snapshot := [2], snapshotTerm := 1, snapshotIndex := 3 }

/-- A message with a snapshot, as the instance sends it, has no command index.
Restoring it takes both counters to zero, below what was executed, and an
earlier snapshot is then restored over the later one. -/
theorem counters_fall : ∃ rf' m kv kv₁ kv₂,
    RaftHandlers.apply installedPeer = .ok (rf', m) ∧ IsSnapshot m ∧ m.snapshotIndex = 5 ∧
    exec (step readTables) startKVServer [.message firstCommand, .initSnapshot] = some kv ∧
    kv.lastExecutedIndex = 1 ∧ kv.lastSnapshotIndex = 1 ∧
    step readTables kv (.message m) = some kv₁ ∧ kv₁.lastExecutedIndex = 0 ∧
    kv₁.lastSnapshotIndex = 0 ∧ kv₁.values.lookup "k" = some "later" ∧
    step readTables kv₁ (.message earlierSnapshot) = some kv₂ ∧
    kv₂.values.lookup "k" = some "earlier" := by
  refine ⟨_,_,_,_,_,rfl,⟨rfl,rfl⟩,rfl,rfl,?_,?_,rfl,?_,?_,?_,rfl,?_⟩ <;> decide +kernel

end Mitdist.SnapshotCounters
