import Mitdist.RaftIndices
import Mitdist.KvServer

/-!
# A Raft instance and its key/value server

The two run concurrently. A message that the instance has taken from its log
waits on the channel until the server receives it, and the server handles it
later still; the server's polling loop asks for snapshots at the index that it
has executed. What the server has executed is never ahead of what the instance
has applied, as long as no snapshot is installed behind the applied index.
-/

set_option autoImplicit false

namespace Mitdist.ApplyService
open Mitdist.RaftPeer Mitdist.RaftHandlers Mitdist.RaftOutcomes Mitdist.RaftInstance
open Mitdist.RaftIndices Mitdist.Persistence Mitdist.KvServer Mitdist.TransitionSystem

structure Node where
  rf : Raft Op
  kv : KVServer
  outbox : Option (ApplyMsg Op)
  inbox : Option (ApplyMsg Op)

inductive Event where
  | raft (s : Section Op)
  | receive
  | handle
  | initSnapshot
  deriving DecidableEq, Repr

def launch (rf : Raft Op) : Node := ⟨rf,startKVServer,none,none⟩

section
variable (encode : Requests × Values → Bytes) (decode : Bytes → Option (Requests × Values))

/-- Only the server's polling loop calls `Snapshot`. -/
def step (x : Node) : Event → Option Node
  | .raft .apply =>
    if x.outbox = none then do
      let (rf, msg) ← run x.rf .apply
      return { x with rf := rf, outbox := msg }
    else none
  | .raft .crash => do
    let (rf, _) ← run x.rf .crash
    return launch rf
  | .raft (.snapshot _ _) => none
  | .raft s => do
    let (rf, _) ← run x.rf s
    return { x with rf := rf }
  | .receive => do
    let m ← x.outbox
    if x.inbox = none then return { x with outbox := none, inbox := some m } else none
  | .handle => do
    let m ← x.inbox
    let (kv, _) ← (KvServer.apply decode x.kv m).toOption
    return { x with kv := kv, inbox := none }
  | .initSnapshot => do
    let (kv, index) ← initSnapshot x.kv
    let rf ← (snapshot x.rf index (encode (kv.lastRequest, kv.values))).toOption
    return { x with rf := rf, kv := kv }

end

/-- Requests carry consecutive entries, as those of a correct leader do. -/
def Sent : Event → Prop
  | .raft s => InOrder s
  | _ => True

instance decidableSent : ∀ e : Event, Decidable (Sent e)
  | .raft s => decidableInOrder s
  | .receive | .handle | .initSnapshot => .isTrue trivial

/-- A snapshot that the instance would install is not behind what it applied. -/
def Ahead (x : Node) : Event → Prop
  | .raft (.installSnapshot args) => x.rf.lastApplied ≤ args.lastIncludedIndex ∨
      args.term < x.rf.currentTerm ∨ args.lastIncludedIndex ≤ x.rf.lastIncludedIndex
  | _ => True

instance decidableAhead (x : Node) : ∀ e : Event, Decidable (Ahead x e)
  | .raft (.installSnapshot args) => inferInstanceAs (Decidable (
      x.rf.lastApplied ≤ args.lastIncludedIndex ∨ args.term < x.rf.currentTerm ∨
      args.lastIncludedIndex ≤ x.rf.lastIncludedIndex))
  | .raft (.start _) | .raft (.snapshot _ _) | .raft (.requestVote _) | .raft (.appendEntries _)
  | .raft (.handleHigherTerm _) | .raft (.handleAppendReply _ _ _) | .raft .election
  | .raft (.concludeElection _ _) | .raft .advanceCommitIndex | .raft .apply | .raft .crash
  | .receive | .handle | .initSnapshot => .isTrue trivial

structure Ready (x : Node) : Prop where
  kept : Kept x.rf
  ordered : Ordered x.rf
  included : -1 ≤ x.rf.lastIncludedIndex
  installed : x.rf.snapshotInstalled = true → x.rf.lastApplied ≤ x.rf.lastIncludedIndex
  readable : x.rf.snapshotInstalled = true ∨ x.rf.lastIncludedIndex ≤ x.rf.lastApplied
  executed : x.kv.lastExecutedIndex ≤ x.rf.lastApplied + 1
  outbox : ∀ m ∈ x.outbox, m.commandIndex ≤ x.rf.lastApplied + 1
  inbox : ∀ m ∈ x.inbox, m.commandIndex ≤ x.rf.lastApplied + 1

theorem ready_launch (rf : Raft Op) (hk : Kept rf) (ho : Ordered rf)
    (hi : -1 ≤ rf.lastIncludedIndex) (ha : rf.lastApplied = rf.lastIncludedIndex) :
    Ready (launch rf) where
  kept := hk
  ordered := ho
  included := hi
  installed _ := ha.le
  readable := Or.inr ha.ge
  executed := by
    simp only [launch, startKVServer]
    omega
  outbox m hm := by simp [launch] at hm
  inbox m hm := by simp [launch] at hm

/-- The indices of the instance move and those of the server do not. -/
theorem ready_raft (x : Node) (h : Ready x) (rf : Raft Op) (hk : Kept rf) (ho : Ordered rf)
    (hi : -1 ≤ rf.lastIncludedIndex) (ha : x.rf.lastApplied ≤ rf.lastApplied)
    (hp : rf.snapshotInstalled = true → rf.lastApplied ≤ rf.lastIncludedIndex)
    (hr : rf.snapshotInstalled = true ∨ rf.lastIncludedIndex ≤ rf.lastApplied) :
    Ready { x with rf := rf } where
  kept := hk
  ordered := ho
  included := hi
  installed := hp
  readable := hr
  executed := h.executed.trans (by simpa using ha)
  outbox m hm := (h.outbox m hm).trans (by simpa using ha)
  inbox m hm := (h.inbox m hm).trans (by simpa using ha)

theorem ready_apply (x : Node) (h : Ready x) (rf : Raft Op) (msg : ApplyMsg Op)
    (hran : Ran x.rf .apply rf (some msg)) (hk : Kept rf) (ho : Ordered rf) :
    Ready { x with rf := rf, outbox := some msg } := by
  cases hran with
  | apply _ _ _ he =>
    have hi := h.included
    rcases apply_outcome msg he with ⟨hp,rfl,rfl⟩ | ⟨hp,rfl,e,-,rfl⟩
    · have hr := ready_raft x h _ hk ho hi (h.installed hp) (fun hs => by simp at hs)
        (Or.inr le_rfl)
      refine { hr with outbox := fun m hm => ?_ }
      rw [← Option.some.inj hm]
      simp only
      omega
    · have hl := h.readable.resolve_left (by simp [hp])
      have hr := ready_raft x h _ hk ho hi (Int.le_add_one le_rfl)
        (fun hs => absurd hs (by simp [hp])) (Or.inr (Int.le_add_one hl))
      refine { hr with outbox := fun m hm => ?_ }
      rw [← Option.some.inj hm]

/-- A section other than those of the apply loop, of a restart and of a call
of the service. -/
theorem ready_section (x : Node) (h : Ready x) (s : Section Op) (rf : Raft Op)
    (m : Option (ApplyMsg Op)) (hs : Ahead x (.raft s)) (hran : Ran x.rf s rf m) (ha : s ≠ .apply)
    (hc : s ≠ .crash) (hn : ∀ index bytes, s ≠ .snapshot index bytes) (hk : Kept rf)
    (ho : Ordered rf) : Ready { x with rf := rf } := by
  have hincl := h.included
  obtain ⟨-,happ,⟨hi,hp⟩ | ⟨index,bytes,hsnap,-⟩ | ⟨args,rfl,ht,hlow,hi,hp⟩⟩ :=
    moved_section h.ordered s m hran ha hc
  · exact ready_raft x h rf hk ho (hi ▸ hincl) happ.ge
      (by rw [hp, happ, hi]; exact h.installed) (by rw [hp, happ, hi]; exact h.readable)
  · exact absurd hsnap (hn index bytes)
  · refine ready_raft x h rf hk ho (by omega) happ.ge (fun _ => ?_) (Or.inl hp)
    rcases hs with hahead | hold | hold <;> omega

/-- The server asks for a snapshot at an index that the instance has applied;
while an installed snapshot waits, that index is not above the snapshot's. -/
theorem ready_snapshot (x : Node) (h : Ready x) (bytes : Bytes) (rf : Raft Op)
    (he : snapshot x.rf x.kv.lastExecutedIndex bytes = .ok rf) : Ready { x with rf := rf } := by
  have hran : Ran x.rf (.snapshot x.kv.lastExecutedIndex bytes) rf none := .snapshot _ _ _ he
  have hk := kept_section h.kept _ _ hran
  have ho := ordered_section h.kept h.ordered (.snapshot _ bytes) none trivial hran
  have hincl := h.included
  have hexec := h.executed
  rcases snapshot_indices h.ordered _ _ he with rfl | ⟨hlow,-,hi,-,-,happ,hp⟩
  · exact h
  · have hnot : x.rf.snapshotInstalled ≠ true := fun hs => by
      have := h.installed hs
      omega
    exact ready_raft x h rf hk ho (by omega) happ.ge (fun hs => absurd (hp ▸ hs) hnot)
      (Or.inr (by omega))

/-- What the server has executed moves to the index of the message, if at all. -/
theorem apply_executed (decode : Bytes → Option (Requests × Values)) (kv kv' : KVServer)
    (m : ApplyMsg Op) (n : ℤ) (h : KvServer.apply decode kv m = .ok (kv', n)) :
    kv'.lastExecutedIndex = kv.lastExecutedIndex ∨ kv'.lastExecutedIndex = m.commandIndex := by
  rw [KvServer.apply] at h
  split_ifs at h with hv hs hi
  · rw [bind_ok] at h
    obtain ⟨kv1,h1,h⟩ := h
    obtain ⟨rfl,-⟩ := Prod.mk.inj (Except.ok.inj h)
    rw [setState] at h1
    split_ifs at h1
    · exact Or.inl (by rw [← Except.ok.inj h1])
    · split at h1
      · simp at h1
      · exact Or.inr (by rw [← Except.ok.inj h1])
  · obtain ⟨rfl,-⟩ := Prod.mk.inj (Except.ok.inj h)
    exact Or.inl rfl
  · rw [bind_ok] at h
    obtain ⟨kv1,h1,h⟩ := h
    obtain ⟨rfl,-⟩ := Prod.mk.inj (Except.ok.inj h)
    rw [executeIfNew] at h1
    split at h1
    · simp at h1
    · split_ifs at h1
      · exact Or.inl (by rw [← Except.ok.inj h1])
      · rw [bind_ok] at h1
        obtain ⟨r,-,h1⟩ := h1
        rw [← Except.ok.inj h1]
        exact (max_choice m.commandIndex kv.lastExecutedIndex).symm

section
variable (encode : Requests × Values → Bytes) (decode : Bytes → Option (Requests × Values))

theorem step_raft (x x' : Node) (s : Section Op)
    (hx : step encode decode x (.raft s) = some x') :
    ∃ rf m, Ran x.rf s rf m ∧ (s = .apply ∧ x' = { x with rf := rf, outbox := m } ∨
      s = .crash ∧ x' = launch rf ∨
      s ≠ .apply ∧ s ≠ .crash ∧ (∀ index bytes, s ≠ .snapshot index bytes) ∧
        x' = { x with rf := rf }) := by
  cases s with
  | apply =>
    simp only [step, Option.ite_none_right_eq_some, Option.bind_eq_bind, Option.bind_eq_some_iff,
      Option.pure_def, Option.some.injEq] at hx
    obtain ⟨-,⟨rf,m⟩,hrun,rfl⟩ := hx
    exact ⟨rf,m,run_ran _ _ hrun,Or.inl ⟨rfl,rfl⟩⟩
  | crash =>
    simp only [step, Option.bind_eq_bind, Option.bind_eq_some_iff, Option.pure_def,
      Option.some.injEq] at hx
    obtain ⟨⟨rf,m⟩,hrun,rfl⟩ := hx
    exact ⟨rf,m,run_ran _ _ hrun,Or.inr (Or.inl ⟨rfl,rfl⟩)⟩
  | snapshot index bytes => simp [step] at hx
  | _ =>
    simp only [step, Option.bind_eq_bind, Option.bind_eq_some_iff, Option.pure_def,
      Option.some.injEq] at hx
    obtain ⟨⟨rf,m⟩,hrun,rfl⟩ := hx
    exact ⟨rf,m,run_ran _ _ hrun,Or.inr (Or.inr ⟨by simp,by simp,by simp,rfl⟩)⟩

theorem ready_step (x x' : Node) (e : Event) (h : Ready x) (he : Sent e ∧ Ahead x e)
    (hx : step encode decode x e = some x') : Ready x' := by
  cases e with
  | raft s =>
    obtain ⟨rf,m,hran,hcase⟩ := step_raft encode decode x x' s hx
    have hk := kept_section h.kept s m hran
    have ho := ordered_section h.kept h.ordered s m he.1 hran
    rcases hcase with ⟨rfl,rfl⟩ | ⟨rfl,rfl⟩ | ⟨ha,hc,hn,rfl⟩
    · cases m with
      | none => cases hran
      | some msg => exact ready_apply x h rf msg hran hk ho
    · cases hran with
      | crash =>
        refine ready_launch _ hk ho ?_ rfl
        simpa [make, h.kept.raftstate, saved] using h.included
    · exact ready_section x h s rf m he.2 hran ha hc hn hk ho
  | receive =>
    simp only [step, Option.bind_eq_bind, Option.bind_eq_some_iff, Option.ite_none_right_eq_some,
      Option.pure_def, Option.some.injEq] at hx
    obtain ⟨m,hm,-,rfl⟩ := hx
    exact { h with
      outbox := fun d hd => by simp at hd
      inbox := fun d hd => h.outbox d (by simpa [← Option.some.inj hd] using hm) }
  | handle =>
    simp only [step, Option.bind_eq_bind, Option.bind_eq_some_iff, to_option_some, Option.pure_def,
      Option.some.injEq] at hx
    obtain ⟨m,hm,⟨kv,n⟩,happ,rfl⟩ := hx
    refine { h with executed := ?_, inbox := fun d hd => by simp at hd }
    rcases apply_executed decode x.kv kv m n happ with hsame | hindex
    · exact hsame.trans_le h.executed
    · exact hindex.trans_le (h.inbox m hm)
  | initSnapshot =>
    simp only [step, KvServer.initSnapshot, Option.bind_eq_bind, Option.bind_eq_some_iff,
      Option.ite_none_right_eq_some, to_option_some, Option.pure_def, Option.some.injEq] at hx
    obtain ⟨-,⟨-,rfl⟩,rf,hsnap,rfl⟩ := hx
    exact { ready_snapshot x h _ rf hsnap with }

/-- In every run of an instance and its server in which no snapshot is
installed behind what the instance has applied, the next index to apply is in
the retained log unless an installed snapshot comes first. -/
theorem apply_reads_retained (n me : ℕ) (es : List Event) (x : Node)
    (hm : Meets (step encode decode) (fun x e => Sent e ∧ Ahead x e) (launch (make n me {})) es)
    (h : exec (step encode decode) (launch (make n me {})) es = some x) :
    (x.rf.snapshotInstalled = true ∨ x.rf.lastIncludedIndex ≤ x.rf.lastApplied) ∧
    (x.rf.snapshotInstalled = false →
      x.rf.lastIncludedIndex < x.rf.lastApplied + 1 ∧
      0 ≤ x.rf.lastApplied + 1 - x.rf.baseIndex ∧
      logEntry x.rf (x.rf.lastApplied + 1) =
        load x.rf.log (x.rf.lastApplied + 1 - x.rf.baseIndex)) := by
  have h0 : Ready (launch (make n me ({} : Persister Op))) :=
    ready_launch _ (kept_make n me {}) ⟨rfl,fun k e he => by simp [make, readPersist] at he⟩
      (by simp [make, readPersist]) rfl
  have hx := exec_invariant _ _ Ready (fun s e s' => ready_step encode decode s s' e) es _ x h0 hm h
  refine ⟨hx.readable,fun hp => ?_⟩
  have hl := hx.readable.resolve_left (by simp [hp])
  have hb := hx.ordered.base
  refine ⟨by omega,by omega,?_⟩
  rw [logEntry, if_neg (by omega)]

end

def encode : Requests × Values → Bytes := fun _ => [1]

def decode : Bytes → Option (Requests × Values) := fun _ => some (∅, ∅)

def follower : Node := launch (make 3 0 {})

def request (prevLogIndex : ℤ) (prevLogTerm : ℕ) (entries : List (LogEntry Op)) (commit : ℤ) :
    Event :=
  .raft (.appendEntries ⟨1,1,prevLogIndex,prevLogTerm,entries,commit⟩)

def put (requestNumber : ℤ) : Option Op := some ⟨.put,["k", "v"],1,requestNumber⟩

def deliver : List Event := [.raft .apply, .receive, .handle]

/-- The server takes a snapshot of two commands, and then the leader's
snapshot of three arrives. -/
def timelySnapshots : List Event :=
  [request (-1) 0 [⟨0,1,put 1⟩,⟨1,1,put 2⟩] 1] ++ deliver ++ deliver ++
    [.initSnapshot, .raft (.installSnapshot ⟨1,1,2,1,[1]⟩), request 2 1 [⟨3,1,put 4⟩] 3] ++
    deliver ++ deliver

theorem apply_reads_retained_timely :
    ∃ x, exec (step encode decode) follower timelySnapshots = some x ∧
      x.rf.lastIncludedIndex = 2 ∧ x.rf.lastApplied = 3 ∧
      (x.rf.snapshotInstalled = true ∨ x.rf.lastIncludedIndex ≤ x.rf.lastApplied) :=
  ⟨_,rfl,by decide +kernel,by decide +kernel,
    (apply_reads_retained encode decode 3 0 timelySnapshots _ (by decide +kernel) rfl).1⟩

/-- A snapshot of the first command arrives after both were executed. The
server ignores it, and then takes a snapshot of both. -/
def delayedSnapshot : List Event :=
  [request (-1) 0 [⟨0,1,put 1⟩,⟨1,1,put 2⟩] 1] ++ deliver ++ deliver ++
    [.raft (.installSnapshot ⟨1,1,0,1,[1]⟩), request 1 1 [⟨2,1,put 3⟩] 2] ++ deliver ++
    [.initSnapshot]

/-- The next command to apply is then the placeholder of the last included
entry. -/
theorem apply_reads_compacted : ∃ x,
    Meets (step encode decode) (fun _ e => Sent e) follower delayedSnapshot ∧
    exec (step encode decode) follower delayedSnapshot = some x ∧
    x.rf.snapshotInstalled = false ∧ x.rf.lastApplied < x.rf.lastIncludedIndex ∧
    x.rf.lastApplied < x.rf.commitIndex ∧
    logEntry x.rf (x.rf.lastApplied + 1) = .ok ⟨1,1,none⟩ :=
  ⟨_,by decide +kernel,rfl,by decide +kernel,by decide +kernel,by decide +kernel,rfl⟩

end Mitdist.ApplyService
