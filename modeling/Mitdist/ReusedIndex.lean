import Mitdist.Rendezvous
import Mitdist.RaftSimulation

/-!
# Handlers and reused log indices

The servers of a cluster with their Raft instances: an operation calls `Start`
on the instance of its server, and a crash takes the handlers of the server
with it. The events of the instances, the polls of the term and the messages
of the apply loops interleave in every way. `Start` returns an index twice if
the tail behind it was cut in between. It then returns another term, so the
handlers of the term in which it is called never meet an index of their own.
-/

set_option autoImplicit false

namespace Mitdist.ReusedIndex
open Mitdist.RaftPeer Mitdist.RaftHandlers Mitdist.RaftOutcomes Mitdist.RaftCluster
  Mitdist.RaftEvents Mitdist.RaftRelation Mitdist.RaftSimulation Mitdist.KvServer
  Mitdist.KvHandlers Mitdist.TransitionSystem
open Mitdist.Rendezvous (enrolled countFor Counted counted_step count_pos)

structure System where
  cluster : Cluster Op
  services : ℕ → Server

def boot (n : ℕ) : System := ⟨RaftCluster.initial Op n,fun _ => launch⟩

inductive Event where
  | raft (e : RaftCluster.Event Op)
  | operation (i : ℕ) (op : Op)
  | handler (i : ℕ) (a : Action)
  deriving DecidableEq

def isOperation : Action → Bool
  | .operation _ _ => true
  | _ => false

def restarted (services : ℕ → Server) : RaftCluster.Event Op → ℕ → Server
  | .crash i => Function.update services i launch
  | _ => services

/-- An operation that is a duplicate does not call `Start`. -/
def step (n : ℕ) (decode : Bytes → Option (Requests × Values)) (x : System) :
    Event → Option System
  | .raft e => do
    let c ← RaftCluster.step n x.cluster e
    return { cluster := c, services := restarted x.services e }
  | .operation i op =>
    if isDuplicate (x.services i).kv.lastRequest op then do
      let (server, _) ← KvHandlers.step decode (x.services i) (.operation op (0,0,false))
      return { x with services := Function.update x.services i server }
    else do
      let (_, started) ← (start (x.cluster.servers i) (some op)).toOption
      let (server, _) ← KvHandlers.step decode (x.services i) (.operation op started)
      let c ← RaftCluster.step n x.cluster (.start i (some op))
      return { cluster := c, services := Function.update x.services i server }
  | .handler i a =>
    if isOperation a = false then do
      let (server, _) ← KvHandlers.step decode (x.services i) a
      return { x with services := Function.update x.services i server }
    else none

/-- When an operation calls `Start` on a leader, the handlers that are
registered on the server are of the leader's term. -/
def Settled (x : System) : Event → Prop
  | .operation i op =>
    isDuplicate (x.services i).kv.lastRequest op = false →
      (x.cluster.servers i).state = .leader →
      ∀ h ∈ enrolled (x.services i), h.term = (x.cluster.servers i).currentTerm
  | _ => True

instance decidableSettled (x : System) : ∀ e, Decidable (Settled x e)
  | .operation i _ => inferInstanceAs (Decidable (_ → _ → ∀ h ∈ enrolled (x.services i), _))
  | .raft _ | .handler _ _ => .isTrue trivial

def Recorded (c : Cluster Op) (h : Handler) : Prop :=
  ∃ s ∈ c.started, s.isLeader = true ∧ s.index = h.id ∧ s.term = h.term

structure Kept (n : ℕ) (x : System) : Prop where
  cluster : ∃ a, Sim n x.cluster a
  counted : ∀ i, Counted (x.services i)
  recorded : ∀ i, ∀ h ∈ enrolled (x.services i), Recorded x.cluster h

theorem kept_boot (n : ℕ) : Kept n (boot n) where
  cluster := ⟨_,sim_initial Op n⟩
  counted _ _ := rfl
  recorded i h hh := by simp [boot, launch, enrolled] at hh

theorem started_kept (n : ℕ) (c d : Cluster Op) (e : RaftCluster.Event Op) (hr : Runs n c e d) :
    c.started <+: d.started := by
  cases hr with
  | start i command rf index term isLeader hi h => exact List.prefix_append _ _
  | appendMissingEntries i term server request hi hs hne h =>
    rcases request with - | ⟨-⟩ | ⟨-⟩ <;> exact List.prefix_rfl
  | _ => exact List.prefix_rfl

theorem recorded_kept (n : ℕ) (c d : Cluster Op) (e : RaftCluster.Event Op) (hr : Runs n c e d)
    (h : Handler) (hh : Recorded c h) : Recorded d h := by
  obtain ⟨s,hs,hrec⟩ := hh
  exact ⟨s,(started_kept n c d e hr).subset hs,hrec⟩

theorem sim_next (n : ℕ) (c d : Cluster Op) (e : RaftCluster.Event Op)
    (hc : ∃ a, Sim n c a) (hr : Runs n c e d) : ∃ a, Sim n d a := by
  obtain ⟨a,ha⟩ := hc
  obtain ⟨_,b,-,hb,-⟩ := sim_step ha e hr
  exact ⟨b,hb⟩

/-- Only an operation enrols a handler. -/
theorem enrolled_step (decode : Bytes → Option (Requests × Values)) (x x' : Server) (a : Action)
    (r : Option Reply) (hacted : Acted decode x a x' r) (h : Handler) (hh : h ∈ enrolled x') :
    h ∈ enrolled x ∨ a = .operation h.op (h.id,h.term,true) := by
  obtain ⟨kv,mu,waiting,receives⟩ := x
  cases hacted with
  | answered op started value err hmu ho => exact Or.inl hh
  | registers op id t hmu hnew hidle =>
    simp only at hmu
    subst hmu
    rcases List.mem_append.mp hh with hw | ho
    · exact Or.inl hw
    · rw [List.mem_singleton] at ho
      subst ho
      exact Or.inr rfl
  | waits own hmu hk =>
    simp only at hmu
    subst hmu
    exact Or.inl hh
  | leaves own hmu hk =>
    simp only at hmu
    subst hmu
    exact Or.inl hh
  | sends own value err hmu ht hid =>
    simp only at hmu
    subst hmu
    exact Or.inl (List.mem_append_left _ hh)
  | returns own value err hmu ht hid =>
    simp only at hmu
    subst hmu
    exact Or.inl (List.mem_append_left _ hh)
  | wakes i own hmu hi =>
    simp only at hmu hi
    subst hmu
    rcases List.mem_append.mp hh with hw | ho
    · exact Or.inl (List.mem_of_mem_eraseIdx hw)
    · rw [List.mem_singleton] at ho
      subst ho
      exact Or.inl (List.mem_of_getElem? hi)
  | received own value err hmu hr =>
    simp only at hmu
    subst hmu
    exact Or.inl hh
  | applies m kv' n hmu hr ha =>
    simp only at hmu
    subst hmu
    exact Or.inl hh
  | refreshes term => exact Or.inl hh

/-- A server acts. What it enrols is on record in the cluster. -/
theorem kept_acted (n : ℕ) (decode : Bytes → Option (Requests × Values)) (x : System)
    (d : Cluster Op) (i : ℕ) (y : Server) (a : Action) (r : Option Reply) (hx : Kept n x)
    (hd : ∃ b, Sim n d b) (hrec : ∀ h, Recorded x.cluster h → Recorded d h)
    (hacted : Acted decode (x.services i) a y r)
    (hnew : ∀ h : Handler, a = .operation h.op (h.id,h.term,true) → Recorded d h) :
    Kept n ⟨d,Function.update x.services i y⟩ := by
  refine ⟨hd,fun j => ?_,fun j h hh => ?_⟩
  · show Counted (Function.update x.services i y j)
    by_cases hj : j = i
    · subst hj
      rw [Function.update_self]
      exact counted_step decode _ _ a r (hx.counted j) hacted
    · rw [Function.update_of_ne hj]
      exact hx.counted j
  · show Recorded d h
    change h ∈ enrolled (Function.update x.services i y j) at hh
    by_cases hj : j = i
    · subst hj
      rw [Function.update_self] at hh
      rcases enrolled_step decode _ _ a r hacted h hh with ho | ha
      · exact hrec h (hx.recorded j h ho)
      · exact hnew h ha
    · rw [Function.update_of_ne hj] at hh
      exact hrec h (hx.recorded j h hh)

theorem restarted_cases (services : ℕ → Server) (e : RaftCluster.Event Op) (i : ℕ) :
    restarted services e i = services i ∨ restarted services e i = launch := by
  cases e with
  | crash j =>
    by_cases hj : i = j
    · subst hj
      exact Or.inr (Function.update_self ..)
    · exact Or.inl (Function.update_of_ne hj ..)
  | _ => exact Or.inl rfl

theorem kept_raft (n : ℕ) (x : System) (d : Cluster Op) (e : RaftCluster.Event Op)
    (hx : Kept n x) (hr : Runs n x.cluster e d) : Kept n ⟨d,restarted x.services e⟩ := by
  refine ⟨sim_next n _ _ e hx.cluster hr,fun i => ?_,fun i h hh => ?_⟩
  · show Counted (restarted x.services e i)
    rcases restarted_cases x.services e i with hs | hs
    · rw [hs]
      exact hx.counted i
    · rw [hs]
      exact fun _ => rfl
  · change h ∈ enrolled (restarted x.services e i) at hh
    rcases restarted_cases x.services e i with hs | hs
    · rw [hs] at hh
      exact recorded_kept n _ _ e hr h (hx.recorded i h hh)
    · rw [hs] at hh
      simp [launch, enrolled] at hh

theorem kept_step (n : ℕ) (decode : Bytes → Option (Requests × Values)) (x x' : System) (e : Event)
    (hx : Kept n x) (h : step n decode x e = some x') : Kept n x' := by
  cases e with
  | raft e =>
    simp only [step, Option.bind_eq_bind, Option.bind_eq_some_iff, pure, Option.some.injEq] at h
    obtain ⟨d,hd,rfl⟩ := h
    exact kept_raft n x d e hx (step_runs n x.cluster d e hd)
  | operation i op =>
    rw [step] at h
    split_ifs at h with hdup
    · simp only [Option.bind_eq_bind, Option.bind_eq_some_iff, pure, Option.some.injEq] at h
      obtain ⟨⟨y,r⟩,hy,rfl⟩ := h
      exact kept_acted n decode x x.cluster i y _ r hx hx.cluster (fun _ h => h)
        (step_acted decode _ _ _ _ hy) (fun h hop => by simp at hop)
    · simp only [Option.bind_eq_bind, Option.bind_eq_some_iff, pure, Option.some.injEq,
        to_option_some] at h
      obtain ⟨⟨rf,id,t,isLeader⟩,hstart,⟨y,r⟩,hy,d,hd,rfl⟩ := h
      have hr := step_runs n x.cluster d _ hd
      refine kept_acted n decode x d i y _ r hx (sim_next n _ _ _ hx.cluster hr)
        (recorded_kept n _ _ _ hr) (step_acted decode _ _ _ _ hy) (fun h hop => ?_)
      simp only [Action.operation.injEq, Prod.mk.injEq] at hop
      obtain ⟨-,hid,ht,hl⟩ := hop
      cases hr with
      | start _ _ rf' id' t' isLeader' hi hs =>
        rw [hstart] at hs
        simp only [Except.ok.injEq, Prod.mk.injEq] at hs
        obtain ⟨-,rfl,rfl,rfl⟩ := hs
        exact ⟨_,List.mem_append_right _ (List.mem_singleton_self _),hl,hid,ht⟩
  | handler i a =>
    simp only [step, Option.ite_none_right_eq_some, Option.bind_eq_bind, Option.bind_eq_some_iff,
      pure, Option.some.injEq] at h
    obtain ⟨ha,⟨y,r⟩,hy,rfl⟩ := h
    refine kept_acted n decode x x.cluster i y a r hx hx.cluster (fun _ h => h)
      (step_acted decode _ _ _ _ hy) (fun h hop => ?_)
    subst hop
    simp [isOperation] at ha

/-- `Start` in the same term returns another index than before. -/
theorem start_index_new (n : ℕ) (c : Cluster Op) (hc : ∃ a, Sim n c a) (i : ℕ) (hi : i < n)
    (op : Op) (rf : Raft Op) (id : ℤ) (t : ℕ)
    (hstart : start (c.servers i) (some op) = .ok (rf, id, t, true)) (h : Handler)
    (hrec : Recorded c h) (ht : h.term = t) : h.id ≠ id := by
  obtain ⟨s,hs,hl,hid,hterm⟩ := hrec
  obtain ⟨a,ha⟩ := sim_next n c _ _ hc (.start i (some op) rf id t true hi hstart)
  rw [← hid]
  exact (List.pairwise_append.mp ha.distinct).2.2 s hs _ (List.mem_singleton_self _) hl rfl
    (hterm.trans ht)

theorem start_term (rf rf' : Raft Op) (command : Option Op) (id : ℤ) (t : ℕ)
    (h : start rf command = .ok (rf', id, t, true)) :
    rf.state = .leader ∧ t = rf.currentTerm := by
  have hout := start_outcome command id t true h
  have hl : rf.state = .leader := by simpa using hout.1.symm
  rw [start, if_pos hl, bind_ok] at h
  obtain ⟨rf1,happ,h⟩ := h
  rw [appendEntryLocal, bind_ok] at happ
  obtain ⟨matchIndex,-,happ⟩ := happ
  simp only [pure, Except.pure, Except.ok.injEq, Prod.mk.injEq] at h happ
  rw [← h.2.2.1, ← happ]
  exact ⟨hl,rfl⟩

/-- No handler waits for an index that `Start` returns to an operation, if the
handlers that are registered then are of the leader's term. -/
theorem start_index_idle (n : ℕ) (decode : Bytes → Option (Requests × Values)) (es : List Event)
    (x : System) (hes : exec (step n decode) (boot n) es = some x) (i : ℕ) (hi : i < n) (op : Op)
    (hnew : isDuplicate (x.services i).kv.lastRequest op = false)
    (hsettled : Settled x (.operation i op)) (rf : Raft Op) (id : ℤ) (t : ℕ)
    (hstart : start (x.cluster.servers i) (some op) = .ok (rf, id, t, true)) :
    (x.services i).kv.nWaitingHandlers id = 0 ∧
      operation (x.services i).kv op (id,t,true) =
        .ok (registered (x.services i).kv id, .registered id t) := by
  have hx := exec_always (step n decode) (Kept n)
    (fun u e v hu hv => kept_step n decode u v e hu hv) es (boot n) x (kept_boot n) hes
  obtain ⟨hl,ht⟩ := start_term _ _ _ _ _ hstart
  have hidle : (x.services i).kv.nWaitingHandlers id = 0 := by
    rw [hx.counted i id, Int.natCast_eq_zero]
    by_contra hc
    obtain ⟨h,hh,hid⟩ := (count_pos _ id).mp (Nat.pos_of_ne_zero hc)
    exact start_index_new n x.cluster hx.cluster i hi op rf id t hstart h (hx.recorded i h hh)
      ((hsettled hnew hl h hh).trans ht.symm) hid
  refine ⟨hidle,?_⟩
  rw [operation, if_neg (by simp [hnew])]
  simp only [Bool.true_eq_false, if_false, hidle, ne_eq, not_true_eq_false]
  rw [registered, hidle]

def put (clientId : ℤ) : Op := ⟨.put,["k","v"],clientId,0⟩

def elect (k i j : ℕ) : List Event :=
  [.raft (.election i),.raft (.requestVote k j),.raft (.requestVoteReply k j),
    .raft (.countVote k j),.raft (.gatherVotes k),.raft (.concludeElection k)]

/-- Server 0 leads term 1 and two of its handlers wait. -/
def twoWait : List Event :=
  elect 0 0 1 ++ [.handler 0 (.refreshRaftTerm 1),
    .operation 0 (put 1),.handler 0 .loop,.operation 0 (put 2),.handler 0 .loop]

theorem start_index_idle_two_wait : ∃ x, exec (step 3 (fun _ => none)) (boot 3) twoWait = some x ∧
    (x.services 0).kv.nWaitingHandlers 2 = 1 ∧ (x.services 0).kv.nWaitingHandlers 3 = 0 ∧
    operation (x.services 0).kv (put 3) (3,1,true) =
      .ok (registered (x.services 0).kv 3, .registered 3 1) := by
  obtain ⟨x,hx⟩ := Option.isSome_iff_exists.mp
    (by decide +kernel : (exec (step 3 (fun _ => none)) (boot 3) twoWait).isSome)
  have hstate : ∀ y ∈ exec (step 3 (fun _ => none)) (boot 3) twoWait,
      isDuplicate (y.services 0).kv.lastRequest (put 3) = false ∧
      Settled y (.operation 0 (put 3)) ∧ (y.services 0).kv.nWaitingHandlers 2 = 1 ∧
      ((start (y.cluster.servers 0) (some (put 3))).toOption.map Prod.snd) = some (3,1,true) := by
    decide +kernel
  obtain ⟨hnew,hsettled,hwait,hstart⟩ := hstate x hx
  simp only [Option.map_eq_some_iff, to_option_some] at hstart
  obtain ⟨⟨rf,id,t,isLeader⟩,hstart,hret⟩ := hstart
  simp only [Prod.mk.injEq] at hret
  obtain ⟨rfl,rfl,rfl⟩ := hret
  obtain ⟨hidle,hop⟩ := start_index_idle 3 (fun _ => none) twoWait x hx 0 (by decide) (put 3) hnew
    hsettled rf 3 1 hstart
  exact ⟨x,hx,hwait,hidle,hop⟩

/-- Server 1 leads term 2 and overwrites the log of server 0, which then leads
term 3. The term is not polled and the handlers are not woken. -/
def reelected : List Event :=
  twoWait ++ elect 1 1 2 ++
    [.operation 1 (put 3),.raft (.appendMissingEntries 1 2 0),.raft (.appendEntries 0)] ++
    elect 2 0 2

theorem reused_index_fatal : ∃ x, exec (step 3 (fun _ => none)) (boot 3) reelected = some x ∧
    (x.services 0).mu = .free ∧ isDuplicate (x.services 0).kv.lastRequest (put 4) = false ∧
    (start (x.cluster.servers 0) (some (put 4))).toOption.map Prod.snd = some (2,3,true) ∧
    (x.services 0).kv.nWaitingHandlers 2 = 1 ∧
    operation (x.services 0).kv (put 4) (2,3,true) =
      .error (.fatal "Some RPC is already waiting for 2") := by
  obtain ⟨x,hx⟩ := Option.isSome_iff_exists.mp
    (by decide +kernel : (exec (step 3 (fun _ => none)) (boot 3) reelected).isSome)
  have hstate : ∀ y ∈ exec (step 3 (fun _ => none)) (boot 3) reelected,
      (y.services 0).mu = .free ∧ isDuplicate (y.services 0).kv.lastRequest (put 4) = false ∧
      (start (y.cluster.servers 0) (some (put 4))).toOption.map Prod.snd = some (2,3,true) ∧
      (y.services 0).kv.nWaitingHandlers 2 = 1 := by
    decide +kernel
  obtain ⟨hmu,hnew,hstart,hwait⟩ := hstate x hx
  refine ⟨x,hx,hmu,hnew,hstart,hwait,?_⟩
  rw [operation, if_neg (by simp [hnew])]
  simp only [Bool.true_eq_false, if_false, hwait, ne_eq, one_ne_zero, not_false_eq_true, if_true]
  rfl

end Mitdist.ReusedIndex
