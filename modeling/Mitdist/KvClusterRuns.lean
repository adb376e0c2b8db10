import Mitdist.KvAgreement
import Mitdist.KvLinearizable

/-!
# The whole key/value cluster is linearizable

The calls that the clerks record, the sequence that the Raft instances agree on
and the results that the servers return form a run of the service over an
agreed sequence, whatever is lost, repeated, delayed, snapshotted or restarted.
What is assumed of a run is what state machine safety needs of the instances:
only leaders that poll advance their commit index, a request that is answered
without being looked at carries nothing new, and the apply loop reads no
discarded entry.
-/

set_option autoImplicit false

namespace Mitdist.KvClusterRuns
open Mitdist.RaftPeer Mitdist.RaftOutcomes Mitdist.RaftEvents Mitdist.RaftRelation
open Mitdist.Sessions Mitdist.Linearization Mitdist.KvServer Mitdist.KvReplay Mitdist.KvNodes
open Mitdist.KvAgreement Mitdist.KvCluster Mitdist.KvLinearizable Mitdist.TransitionSystem
open Mitdist.KvHandlers (Action Reply launch)
open Mitdist.KvSnapshots (Position origin RoundTrips Taken state replayed)
open Mitdist.RaftCluster (Cluster Started withServer)
open Mitdist.KvService (Call accepts Service Outstanding Answered Consistent consistent_call
  consistent_commit consistent_accept call_executes)

/-- The calls and the agreed sequence, as those of the service. -/
def record (x : System) : Service where
  reqN id := (x.clerks id).reqN
  history := x.history
  submitted := invoked x.history
  agreed := x.agreed
  delivered _ := 0
  servers _ := launch
  replies := []

/-- An idle clerk has returned from all its calls, any other one from all but
the current one. -/
def Attends (history : List (Act Op String)) (id : ℤ) : Activity → Prop
  | .idle => ∀ op ∈ invoked history, op.clientId = id → op ∈ answered history
  | .calling op | .waiting op _ => op.clientId = id ∧ op ∈ invoked history ∧
      op ∉ answered history ∧
      ∀ o ∈ invoked history, o.clientId = id → o ≠ op → o ∈ answered history

def Rightful (s : Service) (r : Reply) : Prop :=
  r.op ∈ invoked s.history ∧
    (r.err ≠ .errWrongLeader → Outstanding s r.op → Answered s r.op r.value)

structure Good (encode : Requests × Values → Bytes) (n : ℕ) (x : System) (a : Past Op)
    (p : ℕ → Position) : Prop where
  agrees : Agrees encode n x.history x.agreed x.cluster a
  consistent : Consistent (record x)
  clerks : ∀ id, Attends x.history id (x.clerks id).activity
  requests : ∀ r ∈ x.requests, r.2 ∈ invoked x.history
  replies : ∀ r ∈ x.replies, Rightful (record x) r.2
  nodes : ∀ i, Serving encode (record x) (x.cluster.servers i) (x.nodes i) (p i)
  once : (invoked x.history).Nodup

variable {encode : Requests × Values → Bytes} {decode : Bytes → Option (Requests × Values)}
  {n : ℕ} {x x' : System} {a : Past Op} {p : ℕ → Position}

theorem new_leader_keeps (nServers : ℕ) (ck : Clerk) (oldLeader r : ℕ) :
    (tryNewLeader nServers ck oldLeader r).reqN = ck.reqN ∧
      (tryNewLeader nServers ck oldLeader r).activity = ck.activity := by
  rw [tryNewLeader]
  split_ifs <;> exact ⟨rfl,rfl⟩

theorem good_initial (encode : Requests × Values → Bytes) (n : ℕ) (nrand : ℤ → ℕ) :
    Good encode n (initial n nrand) LeaderProtocol.initial (fun _ => origin) where
  agrees := agrees_initial encode n
  consistent := { KvService.consistent_initial with
    calls := { KvService.consistent_initial.calls with
      numbered := fun op hop => by simp [record, initial, invoked] at hop } }
  clerks id := by
    have hidle : ((initial n nrand).clerks id).activity = .idle := (new_leader_keeps n _ _ _).2
    rw [hidle]
    intro op hop
    simp [initial, invoked] at hop
  requests r hr := by simp [initial] at hr
  replies r hr := by simp [initial] at hr
  nodes i := serving_start
    ⟨(by decide : (-1:ℤ) ≤ -1 + 1),fun _ => (by decide : (-1:ℤ) < -1 + 1),fun _ => rfl⟩
  once := List.nodup_nil

theorem good_node (h : Good encode n x a p) (i : ℕ) (node : Node) (q : Position)
    (hn : Serving encode (record x) (x.cluster.servers i) node q) :
    Good encode n (withNode x i node) a (Function.update p i q) :=
  { h with
    nodes := fun j => by
      by_cases hj : j = i
      · subst hj
        simp only [withNode, Function.update_self]
        exact hn
      · simp only [withNode, Function.update_of_ne hj]
        exact h.nodes j }

theorem good_serve (h : Good encode n x a p) (i : ℕ) (act : Action)
    (hk : ∀ op started, act = .operation op started → op ∈ invoked x.history)
    (hm : ∀ m, act ≠ .apply m) (hs : serve decode x i act = some x') : Good encode n x' a p := by
  simp only [serve, Option.bind_eq_bind, Option.bind_eq_some_iff, Option.pure_def,
    Option.some.injEq] at hs
  obtain ⟨⟨server,r⟩,hstep,rfl⟩ := hs
  obtain ⟨hserving,hret⟩ := serving_action decode h.consistent (h.nodes i) act r server hk hm hstep
  have hgood := good_node h i _ _ hserving
  rw [Function.update_eq_self] at hgood
  exact { hgood with
    replies := fun d hd => by
      rcases List.mem_append.mp hd with hd | hd
      · exact h.replies d hd
      · obtain ⟨o,ho,rfl⟩ := List.mem_map.mp hd
        exact hret o (by simpa using ho) }

theorem good_handle (h : Good encode n x a p) (hr : RoundTrips encode decode x.agreed) (i : ℕ)
    (m : ApplyMsg Op) (hin : (x.nodes i).inbox = some m)
    (hs : serve decode (withNode x i { x.nodes i with inbox := none }) i (.apply m) = some x') :
    ∃ p', Good encode n x' a p' := by
  simp only [serve, withNode, Function.update_self, Function.update_idem, Option.bind_eq_bind,
    Option.bind_eq_some_iff, Option.pure_def, Option.some.injEq] at hs
  obtain ⟨⟨server,r⟩,hstep,rfl⟩ := hs
  obtain ⟨rfl,q,hserving⟩ := serving_handle decode h.consistent hr (h.nodes i) m hin r server hstep
  exact ⟨_,{ good_node h i _ q hserving with
    replies := fun d hd => h.replies d (by simpa using hd) }⟩

/-- An event of the instances in which no message is put on a channel. -/
theorem good_cluster (h : Good encode n x a p) (e : RaftCluster.Event Op) (c : Cluster Op)
    (hr : Runs n x.cluster e c) (hg : CommitSafety.PollsOnly x.cluster e ∧
      MatchIndex.Covers x.cluster e)
    (hp : ∀ i command, e = .start i command → ∃ op ∈ invoked x.history, command = some op)
    (hi : ∀ i index bytes, e = .snapshot i index bytes → Taken encode x.agreed (index, bytes))
    (ha : ∀ i, e ≠ .apply i) (hc : ∀ i, e ≠ .crash i) :
    ∃ a', Good encode n { x with cluster := c } a' p := by
  obtain ⟨a',hagrees⟩ := agrees_runs h.agrees e hr hg hp hi
  exact ⟨a',{ h with
    agrees := hagrees
    nodes := fun j => serving_instance (h.nodes j)
      (reaches_runs h.agrees.sim e hr j (ha j) (hc j)) }⟩

theorem good_restart (h : Good encode n x a p) (hr : RoundTrips encode decode x.agreed) (i : ℕ)
    (hs : restart n x i = some x') : ∃ a' p', Good encode n x' a' p' := by
  simp only [restart, Option.bind_eq_bind, Option.bind_eq_some_iff, Option.pure_def,
    Option.some.injEq] at hs
  obtain ⟨c,hc,rfl⟩ := hs
  have hruns := step_runs n _ _ _ hc
  obtain ⟨a',hagrees⟩ := agrees_runs h.agrees _ hruns ⟨trivial,trivial⟩
    (fun _ _ he => by cases he) (fun _ _ _ he => by cases he)
  refine ⟨a',Function.update p i origin,{ h with agrees := hagrees, nodes := fun j => ?_ }⟩
  by_cases hj : j = i
  · subst hj
    simp only [withNode, Function.update_self]
    refine serving_start ?_
    cases hruns with
    | crash _ hi =>
      simp only [withServer, Function.update_self]
      exact reaches_crash h.agrees (fun k kv hkv => (hr k kv hkv).2) j
  · simp only [withNode, Function.update_of_ne hj]
    exact serving_instance (h.nodes j) (reaches_runs h.agrees.sim _ hruns j (by simp)
      (by simpa using Ne.symm hj))

theorem rightful_grows {s s' : Service} (r : Reply) (h : Rightful s r)
    (ha : s.agreed <+: s'.agreed) (hk : ∀ op ∈ invoked s.history, op ∈ invoked s'.history)
    (ho : ∀ op ∈ invoked s.history, Outstanding s' op → Outstanding s op) : Rightful s' r :=
  ⟨hk _ h.1,fun he hout => answered_grows ha _ _ (h.2 he (ho _ h.1 hout))⟩

theorem good_apply (h : Good encode n x a p) (i : ℕ) (hout : (x.nodes i).outbox = none)
    (hg : StateMachineSafety.Guarded x.cluster (.apply i)) (c : Cluster Op)
    (hc : RaftCluster.step n x.cluster (.apply i) = some c) (m : ApplyMsg Op) (j : ℕ)
    (hlast : c.applied.getLast? = some (j, m)) :
    ∃ a', Good encode n { withNode x i { x.nodes i with outbox := some m } with
      cluster := c, agreed := agree x.agreed m } a' p := by
  have hruns := step_runs n _ _ _ hc
  obtain ⟨q,t,hin,hq,hreach⟩ := serving_end (h.nodes i) hout
  have hothers := fun j (hj : j ≠ i) => reaches_runs h.agrees.sim _ hruns j
    (by simpa using Ne.symm hj) (by simp)
  cases hruns with
  | apply _ rf msg hi hlt he =>
    rw [List.getLast?_concat, Option.some.injEq, Prod.mk.injEq] at hlast
    obtain ⟨rfl,rfl⟩ := hlast
    obtain ⟨hgrow,hset,q',t',hcarry,hreach'⟩ := apply_carries h.agrees i rf msg hg.2 hlt he q t hq
      hreach
    have hpre : x.agreed <+: agree x.agreed msg := by
      rcases hgrow with heq | ⟨op,-,heq⟩ <;> rw [heq]
      exact List.prefix_append _ _
    obtain ⟨a',hagrees⟩ := agrees_runs (agrees_grows h.agrees (fun _ hop => hop) hpre hset) _
      (step_runs n _ _ _ hc) hg.1 (fun _ _ he => by cases he) (fun _ _ _ he => by cases he)
    have hserving : ∀ j, Serving encode { record x with agreed := agree x.agreed msg }
        (x.cluster.servers j) (x.nodes j) (p j) := fun j =>
      serving_grows (h.nodes j) hpre (fun _ hop => hop) (fun _ _ ho => ho)
    refine ⟨a',hagrees,?_,h.clerks,h.requests,fun r hr => rightful_grows r.2 (h.replies r hr) hpre
      (fun _ hop => hop) (fun _ _ ho => ho),fun j => ?_,h.once⟩
    · show Consistent { record x with agreed := agree x.agreed msg }
      rcases hgrow with heq | ⟨op,hop,heq⟩ <;> rw [heq]
      · exact h.consistent
      · exact consistent_commit h.consistent op hop
    · by_cases hj : j = i
      · subst hj
        simp only [withNode, withServer, Function.update_self]
        exact { hserving j with
          stream := ⟨q,t,q',t',through_grows hpre _ hin,hcarry,hreach'⟩ }
      · simp only [withNode, Function.update_of_ne hj]
        exact serving_instance (hserving j) (hothers j hj)

theorem good_snapshot (h : Good encode n x a p) (i : ℕ) (kv : KVServer) (index : ℤ)
    (hi : KvServer.initSnapshot (x.nodes i).server.kv = some (kv, index)) (c : Cluster Op)
    (hc : RaftCluster.step n x.cluster (.snapshot i index (state encode kv)) = some c) :
    ∃ a', Good encode n { withNode x i { x.nodes i with
      server := { (x.nodes i).server with kv := kv } } with cluster := c } a' p := by
  have hexec : ∀ op ∈ (record x).agreed, Executes op := fun op hop =>
    h.consistent.calls.executes op (h.consistent.agreed op hop)
  obtain ⟨hserving,htaken⟩ := serving_snapshot (h.nodes i) hexec kv index hi
  have hgood := good_node h i _ _ hserving
  rw [Function.update_eq_self] at hgood
  refine good_cluster hgood _ c (step_runs n _ _ _ hc) ⟨trivial,trivial⟩
    (fun _ _ he => by cases he) ?_ (fun _ he => by cases he) (fun _ he => by cases he)
  rintro j index' bytes he
  cases he
  exact htaken

theorem good_submit (h : Good encode n x a p) (i : ℕ) (op : Op) (hop : op ∈ invoked x.history)
    (c : Cluster Op) (s : Started Op) (hs : submit n x i op = some (c, s)) :
    ∃ a', Good encode n { x with cluster := c } a' p := by
  simp only [submit, Option.ite_none_right_eq_some, Option.bind_eq_bind, Option.bind_eq_some_iff,
    Option.pure_def, Option.some.injEq, Prod.mk.injEq] at hs
  obtain ⟨-,c',hc,s',-,rfl,rfl⟩ := hs
  refine good_cluster h _ _ (step_runs n _ _ _ hc) ⟨trivial,trivial⟩ ?_
    (fun _ _ _ he => by cases he) (fun _ he => by cases he) (fun _ he => by cases he)
  rintro j command he
  cases he
  exact ⟨op,hop,rfl⟩

theorem good_requests (h : Good encode n x a p) (rs : List (ℕ × Op))
    (hrs : ∀ r ∈ rs, r.2 ∈ invoked x.history) : Good encode n { x with requests := rs } a p :=
  { h with requests := hrs }

/-- A clerk goes to another point of its loop. -/
theorem good_clerk (h : Good encode n x a p) (id : ℤ) (ck : Clerk)
    (hn : ck.reqN = (x.clerks id).reqN) (hat : Attends x.history id ck.activity) :
    Good encode n (withClerk x id ck) a p := by
  have hreq : (fun k => ((withClerk x id ck).clerks k).reqN) = fun k => (x.clerks k).reqN := by
    funext k
    by_cases hk : k = id
    · subst hk
      simp only [withClerk, Function.update_self, hn]
    · simp only [withClerk, Function.update_of_ne hk]
  have hrec : record (withClerk x id ck) = record x := by
    rw [record, hreq]
    rfl
  refine ⟨h.agrees,hrec ▸ h.consistent,fun k => ?_,h.requests,hrec ▸ h.replies,hrec ▸ h.nodes,
    h.once⟩
  by_cases hk : k = id
  · subst hk
    simpa only [withClerk, Function.update_self] using hat
  · simpa only [withClerk, Function.update_of_ne hk] using h.clerks k

theorem attends_other (history : List (Act Op String)) (id k : ℤ) (act : Act Op String) (op : Op)
    (hact : act = .invoke op ∨ ∃ value, act = .respond op value) (hop : op.clientId = id)
    (hk : k ≠ id) (activity : Activity) (h : Attends history k activity) :
    Attends (history ++ [act]) k activity := by
  have hinv : ∀ o ∈ invoked (history ++ [act]), o.clientId = k → o ∈ invoked history := by
    intro o ho hok
    rcases hact with rfl | ⟨value,rfl⟩
    · rcases (by simpa using ho : o ∈ invoked history ∨ o = op) with ho | rfl
      · exact ho
      · exact absurd (hok.symm.trans hop) hk
    · simpa using ho
  have hkeep : ∀ o, o ∈ invoked history → o ∈ invoked (history ++ [act]) := by
    intro o ho
    rcases hact with rfl | ⟨value,rfl⟩ <;> simp [ho]
  have hans : ∀ o, o.clientId = k → (o ∈ answered (history ++ [act]) ↔ o ∈ answered history) := by
    intro o hok
    rcases hact with rfl | ⟨value,rfl⟩
    · simp
    · have hne : o ≠ op := fun heq => hk (hok.symm.trans (heq ▸ hop))
      simp [hne]
  cases activity with
  | idle => exact fun o ho hok => (hans o hok).mpr (h o (hinv o ho hok) hok)
  | calling d | waiting d lid =>
    obtain ⟨hd,hcalled,hno,hrest⟩ := h
    exact ⟨hd,hkeep d hcalled,fun hyes => hno ((hans d hd).mp hyes),fun o ho hok hne =>
      (hans o hok).mpr (hrest o (hinv o ho hok) hok hne)⟩

/-- All that was called may have been submitted. -/
theorem consistent_submitted {s : Service} (h : Consistent s) :
    Consistent { s with submitted := invoked s.history } :=
  { h with
    submitted := fun _ hop => hop
    agreed := fun op hop => h.submitted op (h.agreed op hop) }

theorem good_call (h : Good encode n x a p) (id : ℤ) (c : Call)
    (hidle : (x.clerks id).activity = .idle) :
    Good encode n { withClerk x id { x.clerks id with
        reqN := (x.clerks id).reqN + 1
        activity := .calling (c.operation id ((x.clerks id).reqN + 1)) } with
      history := x.history ++ [.invoke (c.operation id ((x.clerks id).reqN + 1))] } a p := by
  have hid : (c.operation id ((x.clerks id).reqN + 1)).clientId = id := by cases c <;> rfl
  have hn : (c.operation id ((x.clerks id).reqN + 1)).requestNumber = (x.clerks id).reqN + 1 := by
    cases c <;> rfl
  have he := call_executes c id ((x.clerks id).reqN + 1)
  generalize c.operation id ((x.clerks id).reqN + 1) = op at hid hn he ⊢
  have hdone : ∀ o ∈ invoked x.history, o.clientId = id → o ∈ answered x.history := by
    have := h.clerks id
    rwa [hidle] at this
  have hnew : op ∉ invoked x.history := fun hop => by
    have := h.consistent.calls.numbered op hop
    simp only [record, hid] at this
    omega
  have hnone : op ∉ answered x.history := fun hop => by
    obtain ⟨value,hv⟩ := (mem_answered x.history op).mp hop
    exact hnew (h.consistent.agreed op
      (KvService.answered_mem (h.consistent.answered op value hv)))
  have hreq : (fun k => (Function.update x.clerks id { x.clerks id with
      reqN := (x.clerks id).reqN + 1, activity := .calling op } k).reqN) =
      Function.update (record x).reqN op.clientId ((record x).reqN op.clientId + 1) := by
    funext k
    by_cases hk : k = id
    · subst hk
      simp only [hid, Function.update_self, record]
    · simp only [hid, Function.update_of_ne hk, record]
  have hk : ∀ o ∈ invoked x.history, o ∈ invoked (x.history ++ [.invoke op]) := fun o ho => by
    simp [ho]
  have hcons := consistent_submitted (consistent_call h.consistent op
    (by rw [hid, hn]; rfl) he (by rw [hid]; exact hdone))
  rw [← hreq] at hcons
  refine ⟨agrees_grows h.agrees hk List.prefix_rfl h.agrees.settled,hcons,fun k => ?_,
    fun r hr => hk _ (h.requests r hr),fun r hr => rightful_grows r.2 (h.replies r hr)
      List.prefix_rfl hk (fun o ho hout => ⟨ho,by simpa [record] using hout.2⟩),
    fun i => serving_grows (h.nodes i) List.prefix_rfl hk
      (fun o ho hout => ⟨ho,by simpa [record] using hout.2⟩),by
    simpa using h.once.concat hnew⟩
  by_cases hki : k = id
  · subst hki
    simp only [withClerk, Function.update_self]
    refine ⟨hid,by simp,by simpa using hnone,fun o ho hok hne => ?_⟩
    rcases (by simpa using ho : o ∈ invoked x.history ∨ o = op) with ho | rfl
    · simpa using hdone o ho hok
    · exact absurd rfl hne
  · simp only [withClerk, Function.update_of_ne hki]
    exact attends_other x.history id k _ op (Or.inl rfl) hid hki _ (h.clerks k)

theorem good_accept (h : Good encode n x a p) (id : ℤ) (op : Op) (lid : ℕ)
    (hwait : (x.clerks id).activity = .waiting op lid) (i : ℕ) (r : Reply)
    (hr : (i, r) ∈ x.replies) (hop : r.op = op) (hacc : accepts op r.err = true) :
    Good encode n { withClerk x id { x.clerks id with activity := .idle } with
      history := x.history ++ [.respond op r.value] } a p := by
  subst hop
  obtain ⟨hid,hcalled,hno,hrest⟩ : Attends x.history id (.waiting r.op lid) := by
    have := h.clerks id
    rwa [hwait] at this
  have hout : Outstanding (record x) r.op := ⟨hcalled,hno⟩
  have hright := h.replies (i, r) hr
  have hreplies : Consistent { record x with replies := [(r, true)] } :=
    { h.consistent with
      replies := fun d timely hd => by
        obtain ⟨rfl,rfl⟩ := Prod.mk.inj (List.mem_singleton.mp hd)
        exact ⟨hcalled,fun _ => rfl,fun _ hne => hright.2 hne hout⟩ }
  have hcons := consistent_submitted (consistent_accept hreplies r true
    (List.mem_singleton_self _) hout hacc)
  have hreq : (fun k => (Function.update x.clerks id { x.clerks id with activity := .idle }
      k).reqN) = (record x).reqN := by
    funext k
    by_cases hk : k = id
    · subst hk
      simp only [Function.update_self, record]
    · simp only [Function.update_of_ne hk, record]
  have hk : ∀ o ∈ invoked x.history, o ∈ invoked (x.history ++ [.respond r.op r.value]) :=
    fun o ho => by simpa using ho
  have hstill : ∀ o ∈ invoked x.history, o ∉ answered (x.history ++ [.respond r.op r.value]) →
      o ∉ answered x.history := fun o _ hno hyes => hno (by simp [hyes])
  refine ⟨agrees_grows h.agrees hk List.prefix_rfl h.agrees.settled,?_,fun k => ?_,
    fun d hd => hk _ (h.requests d hd),fun d hd => rightful_grows d.2 (h.replies d hd)
      List.prefix_rfl hk (fun o ho hout => ⟨ho,hstill o ho hout.2⟩),
    fun j => serving_grows (h.nodes j) List.prefix_rfl hk
      (fun o ho hout => ⟨ho,hstill o ho hout.2⟩),by simpa using h.once⟩
  · rw [← hreq] at hcons
    exact { hcons with replies := fun d timely hd => by simp [record] at hd }
  · by_cases hki : k = id
    · subst hki
      simp only [withClerk, Function.update_self]
      intro o ho hok
      by_cases hne : o = r.op
      · simp [hne]
      · have := hrest o (by simpa using ho) hok hne
        simp [this]
    · simp only [withClerk, Function.update_of_ne hki]
      exact attends_other x.history id k _ r.op (Or.inr ⟨_,rfl⟩) hid hki _ (h.clerks k)

/-- What state machine safety asks of the events of the instances. -/
def Guarded (x : System) : Event → Prop
  | .raft e => StateMachineSafety.Guarded x.cluster e
  | .apply i => StateMachineSafety.Guarded x.cluster (.apply i)
  | _ => True

instance decidableGuarded (x : System) : ∀ e, Decidable (Guarded x e)
  | .raft e => StateMachineSafety.decidableGuarded x.cluster e
  | .apply i => StateMachineSafety.decidableGuarded x.cluster (.apply i)
  | .receive _ | .handle _ | .initSnapshot _ | .readTerm _ | .storeTerm _ | .operation _
  | .exit _ | .handler _ _ | .restart _ | .call _ _ | .send _ | .reply _ _ _
  | .failed _ _ => .isTrue trivial

/-- A node is changed in what its server's loop has not handled yet or has
only read. -/
theorem serving_polled {s : Service} {rf : Raft Op} {node : Node} {q : Position}
    (h : Serving encode s rf node q) (polled : Option ℕ) :
    Serving encode s rf { node with polled := polled } q :=
  { h with }

theorem good_operation (h : Good encode n x a p) (k : ℕ)
    (hs : step encode decode n x (.operation k) = some x') : ∃ a' p', Good encode n x' a' p' := by
  simp only [step, Option.bind_eq_bind, Option.bind_eq_some_iff] at hs
  obtain ⟨⟨i,op⟩,hreq,hs⟩ := hs
  have hop : op ∈ invoked x.history := h.requests _ (List.mem_of_getElem? hreq)
  have hk : ∀ o started started', Action.operation op started = .operation o started' →
      o ∈ invoked x.history := by
    rintro o started started' he
    cases he
    exact hop
  have hgood := good_requests h (x.requests.eraseIdx k)
    (fun r hr => h.requests r (List.mem_of_mem_eraseIdx hr))
  split_ifs at hs
  · exact ⟨a,p,good_serve hgood i _ (fun o st => hk o _ st) (by simp) hs⟩
  · rw [Option.bind_eq_some_iff] at hs
    obtain ⟨⟨c,s⟩,hsub,hs⟩ := hs
    obtain ⟨a',hgood'⟩ := good_submit hgood i op hop c s hsub
    exact ⟨a',p,good_serve hgood' i _ (fun o st => hk o _ st) (by simp) hs⟩

theorem good_exit (h : Good encode n x a p) (hr : RoundTrips encode decode x.agreed) (k : ℕ)
    (hs : step encode decode n x (.exit k) = some x') : ∃ a' p', Good encode n x' a' p' := by
  simp only [step, Option.bind_eq_bind, Option.bind_eq_some_iff,
    Option.ite_none_right_eq_some] at hs
  obtain ⟨⟨i,op⟩,hreq,⟨c,s⟩,hsub,-,hs⟩ := hs
  obtain ⟨a',hgood⟩ := good_submit h i op (h.requests _ (List.mem_of_getElem? hreq)) c s hsub
  exact good_restart (good_requests hgood (x.requests.eraseIdx k)
    (fun r hr => h.requests r (List.mem_of_mem_eraseIdx hr))) hr i hs

theorem good_reply (h : Good encode n x a p) (id : ℤ) (k r : ℕ)
    (hs : step encode decode n x (.reply id k r) = some x') : Good encode n x' a p := by
  rw [step] at hs
  split at hs
  · rename_i op lid hwait
    simp only [Option.bind_eq_bind, Option.bind_eq_some_iff, Option.ite_none_right_eq_some] at hs
    obtain ⟨⟨i,reply⟩,hreply,⟨-,hop⟩,hs⟩ := hs
    split_ifs at hs with hacc
    · obtain rfl := Option.some.inj hs
      exact good_accept h id op lid hwait i reply (List.mem_of_getElem? hreply) hop hacc
    · obtain rfl := Option.some.inj hs
      have hat := h.clerks id
      rw [hwait] at hat
      obtain ⟨hn,ha⟩ := new_leader_keeps n { x.clerks id with activity := .calling op } lid r
      exact good_clerk h id _ hn (ha ▸ hat)
  · simp at hs

theorem good_step (hr : RoundTrips encode decode x.agreed) (h : Good encode n x a p) (e : Event)
    (hg : Guarded x e) (hs : step encode decode n x e = some x') :
    ∃ a' p', Good encode n x' a' p' := by
  cases e with
  | raft e =>
    simp only [step, Option.ite_none_right_eq_some, Option.bind_eq_bind, Option.bind_eq_some_iff,
      Option.pure_def, Option.some.injEq] at hs
    obtain ⟨hint,c,hc,rfl⟩ := hs
    obtain ⟨a',hgood⟩ := good_cluster h e c (step_runs n _ _ _ hc) hg.1
      (by rintro _ _ rfl; simp [internal] at hint) (by rintro _ _ _ rfl; simp [internal] at hint)
      (by rintro _ rfl; simp [internal] at hint) (by rintro _ rfl; simp [internal] at hint)
    exact ⟨a',p,hgood⟩
  | apply i =>
    simp only [step, Option.ite_none_right_eq_some, Option.bind_eq_bind, Option.bind_eq_some_iff,
      Option.pure_def, Option.some.injEq] at hs
    obtain ⟨hout,c,hc,⟨j,m⟩,hlast,rfl⟩ := hs
    obtain ⟨a',hgood⟩ := good_apply h i hout hg c hc m j hlast
    exact ⟨a',p,hgood⟩
  | receive i =>
    simp only [step, Option.bind_eq_bind, Option.bind_eq_some_iff, Option.ite_none_right_eq_some,
      Option.pure_def, Option.some.injEq] at hs
    obtain ⟨m,hout,⟨hin,-⟩,rfl⟩ := hs
    exact ⟨a,_,good_node h i _ _ (serving_receive (h.nodes i) m hout hin)⟩
  | handle i =>
    simp only [step, Option.bind_eq_bind, Option.bind_eq_some_iff] at hs
    obtain ⟨m,hin,hs⟩ := hs
    exact ⟨a,good_handle h hr i m hin hs⟩
  | initSnapshot i =>
    simp only [step, Option.ite_none_right_eq_some, Option.bind_eq_bind, Option.bind_eq_some_iff,
      Option.pure_def, Option.some.injEq] at hs
    obtain ⟨-,⟨kv,index⟩,hi,c,hc,rfl⟩ := hs
    obtain ⟨a',hgood⟩ := good_snapshot h i kv index hi c hc
    exact ⟨a',p,hgood⟩
  | readTerm i =>
    simp only [step, Option.ite_none_right_eq_some, Option.some.injEq] at hs
    obtain ⟨-,rfl⟩ := hs
    exact ⟨a,_,good_node h i _ _ (serving_polled (h.nodes i) _)⟩
  | storeTerm i =>
    simp only [step, Option.bind_eq_bind, Option.bind_eq_some_iff] at hs
    obtain ⟨term,-,hs⟩ := hs
    exact ⟨a,_,good_serve (good_node h i _ _ (serving_polled (h.nodes i) none)) i _ (by simp)
      (by simp) hs⟩
  | operation k => exact good_operation h k hs
  | exit k => exact good_exit h hr k hs
  | handler i act =>
    simp only [step, Option.ite_none_right_eq_some] at hs
    obtain ⟨hw,hs⟩ := hs
    exact ⟨a,p,good_serve h i act (by rintro _ _ rfl; simp [waits] at hw)
      (by rintro _ rfl; simp [waits] at hw) hs⟩
  | restart i => exact good_restart h hr i hs
  | call id c =>
    simp only [step, Option.ite_none_right_eq_some, Option.some.injEq] at hs
    obtain ⟨hidle,rfl⟩ := hs
    exact ⟨a,p,good_call h id c hidle⟩
  | send id =>
    rw [step] at hs
    split at hs
    · rename_i op hcall
      simp only [Option.ite_none_right_eq_some, Option.some.injEq] at hs
      obtain ⟨-,rfl⟩ := hs
      have hat := h.clerks id
      rw [hcall] at hat
      refine ⟨a,p,good_requests (good_clerk h id
        { x.clerks id with activity := .waiting op (x.clerks id).leaderId } rfl hat) _ ?_⟩
      intro r hr
      rcases List.mem_append.mp hr with hr | hr
      · exact h.requests r hr
      · rw [List.mem_singleton.mp hr]
        exact hat.2.1
    · simp at hs
  | reply id k r => exact ⟨a,p,good_reply h id k r hs⟩
  | failed id r =>
    rw [step] at hs
    split at hs
    · rename_i op lid hwait
      obtain rfl := Option.some.inj hs
      have hat := h.clerks id
      rw [hwait] at hat
      obtain ⟨hn,ha⟩ := new_leader_keeps n { x.clerks id with activity := .calling op } lid r
      exact ⟨a,p,good_clerk h id _ hn (ha ▸ hat)⟩
    · simp at hs

theorem step_agreed (e : Event) (hs : step encode decode n x e = some x') :
    x.agreed <+: x'.agreed := by
  have served : ∀ (y : System) (i : ℕ) (act : Action), serve decode y i act = some x' →
      x'.agreed = y.agreed := by
    intro y i act h
    simp only [serve, Option.bind_eq_bind, Option.bind_eq_some_iff, Option.pure_def,
      Option.some.injEq] at h
    obtain ⟨_,-,rfl⟩ := h
    rfl
  have restarted : ∀ (y : System) (i : ℕ), restart n y i = some x' → x'.agreed = y.agreed := by
    intro y i h
    simp only [restart, Option.bind_eq_bind, Option.bind_eq_some_iff, Option.pure_def,
      Option.some.injEq] at h
    obtain ⟨_,-,rfl⟩ := h
    rfl
  by_cases hap : ∃ i, e = .apply i
  · obtain ⟨i,rfl⟩ := hap
    simp only [step, Option.ite_none_right_eq_some, Option.bind_eq_bind, Option.bind_eq_some_iff,
      Option.pure_def, Option.some.injEq] at hs
    obtain ⟨-,c,-,⟨j,m⟩,-,rfl⟩ := hs
    simp only [agree]
    split_ifs
    · exact List.prefix_append _ _
    · exact List.prefix_rfl
  · suffices heq : x'.agreed = x.agreed from heq ▸ List.prefix_rfl
    cases e with
    | apply i => exact absurd ⟨i,rfl⟩ hap
    | handle i =>
      simp only [step, Option.bind_eq_bind, Option.bind_eq_some_iff] at hs
      obtain ⟨_,-,hs⟩ := hs
      exact (served _ _ _ hs).trans rfl
    | storeTerm i =>
      simp only [step, Option.bind_eq_bind, Option.bind_eq_some_iff] at hs
      obtain ⟨_,-,hs⟩ := hs
      exact (served _ _ _ hs).trans rfl
    | operation k =>
      simp only [step, Option.bind_eq_bind, Option.bind_eq_some_iff] at hs
      obtain ⟨_,-,hs⟩ := hs
      split_ifs at hs
      · exact (served _ _ _ hs).trans rfl
      · rw [Option.bind_eq_some_iff] at hs
        obtain ⟨_,-,hs⟩ := hs
        exact (served _ _ _ hs).trans rfl
    | exit k =>
      simp only [step, Option.bind_eq_bind, Option.bind_eq_some_iff,
        Option.ite_none_right_eq_some] at hs
      obtain ⟨_,-,_,-,-,hs⟩ := hs
      exact (restarted _ _ hs).trans rfl
    | handler i act =>
      simp only [step, Option.ite_none_right_eq_some] at hs
      exact (served _ _ _ hs.2).trans rfl
    | restart i => exact restarted _ _ hs
    | raft _ | receive _ | initSnapshot _ | readTerm _ | call _ _ | send _ | reply _ _ _
    | failed _ _ =>
      simp only [step, Option.bind_eq_bind, Option.pure_def] at hs
      grind [withNode, withClerk, = Option.bind_eq_some_iff]

theorem round_trips_below {agreed agreed' : List Op} (h : agreed <+: agreed')
    (hr : RoundTrips encode decode agreed') : RoundTrips encode decode agreed := by
  intro i kv hkv
  rw [List.take_eq_take_min, ← take_agreed h _ (Nat.min_le_right i _)] at hkv
  exact hr _ kv hkv

theorem good_run (nrand : ℤ → ℕ) (es : List Event)
    (hm : Meets (step encode decode n) Guarded (initial n nrand) es)
    (h : exec (step encode decode n) (initial n nrand) es = some x)
    (hr : RoundTrips encode decode x.agreed) : ∃ a p, Good encode n x a p := by
  refine exec_invariant (step encode decode n) Guarded
    (fun x => RoundTrips encode decode x.agreed → ∃ a p, Good encode n x a p) ?_ es _ x
    (fun _ => ⟨_,_,good_initial encode n nrand⟩) hm h hr
  intro y e y' hy hg hs hr'
  have hry := round_trips_below (step_agreed e hs) hr'
  obtain ⟨a,p,hgood⟩ := hy hry
  exact good_step hry hgood e hg hs

theorem good_linearizes (h : Good encode n x a p) :
    Linearizes machine Prod.fst ∅ x.history (firsts x.agreed) :=
  linearizes_firsts machine Prod.fst ∅ x.history x.agreed h.consistent.sequential
    h.consistent.agreed h.consistent.answered h.consistent.respects

/-- In every guarded run of the clerks, the servers and their Raft instances:
an operation whose call has returned takes effect at its first occurrence in
the agreed sequence and nowhere else; the tables of every server are those of a
prefix of it; and the first occurrences are a linearization of the calls that
the clerks made and the results that they returned. -/
theorem cluster_linearizable (encode : Requests × Values → Bytes)
    (decode : Bytes → Option (Requests × Values)) (n : ℕ) (nrand : ℤ → ℕ) (es : List Event)
    (x : System) (hm : Meets (step encode decode n) Guarded (initial n nrand) es)
    (h : exec (step encode decode n) (initial n nrand) es = some x)
    (hr : RoundTrips encode decode x.agreed) :
    (∀ op value, .respond op value ∈ x.history →
      ∃ i, First x.agreed i op ∧ ∀ j, TakesEffect x.agreed j op ↔ j = i) ∧
    (∀ i, ∃ k kv, k ≤ x.agreed.length ∧ KvReplay.replay (x.agreed.take k) = .ok kv ∧
      (x.nodes i).server.kv.values = kv.values ∧
      (x.nodes i).server.kv.lastRequest = kv.lastRequest) ∧
    Linearizes machine Prod.fst ∅ x.history (firsts x.agreed) := by
  obtain ⟨a,p,hgood⟩ := good_run nrand es hm h hr
  have hs := hgood.consistent
  have hcalled : ∀ op ∈ x.agreed, op ∈ invoked x.history := hs.agreed
  have he : ∀ op ∈ x.agreed, Executes op := fun op hop => hs.calls.executes op (hcalled op hop)
  refine ⟨fun op value hop => ?_,fun i => ?_,good_linearizes hgood⟩
  · obtain ⟨r,⟨i,hi,-⟩,-⟩ := hs.answered op value hop
    exact ⟨i,hi,fun j => (takes_effect_iff hs.sequential he j op).trans
      ⟨fun hj => first_unique hj hi,fun hj => hj ▸ hi⟩⟩
  · obtain ⟨kv,hkv,ht⟩ := replay_tables (x.agreed.take (p i).delivered)
      (fun o ho => he o (List.mem_of_mem_take ho))
    exact ⟨_,kv,(hgood.nodes i).exact.within,hkv,tables_unique (hgood.nodes i).exact.tables ht⟩

/-- Server `i` is elected with the vote of server `j`. -/
def votedIn (k i j : ℕ) : List Event :=
  [.raft (.election i), .raft (.requestVote k j), .raft (.requestVoteReply k j),
    .raft (.countVote k j), .raft (.gatherVotes k), .raft (.concludeElection k), .readTerm i,
    .storeTerm i]

/-- Leader `i` commits with server `j`. -/
def commits (k term i j : ℕ) : List Event :=
  [.raft (.appendMissingEntries i term j), .raft (.appendEntries k), .raft (.handleAppendReply k),
    .raft (.advanceCommitIndex i)]

def passed (i : ℕ) : List Event := [.apply i, .receive i, .handle i]

def replied (i : ℕ) : List Event :=
  [.handler i (.wake 0), .handler i .loop, .handler i .turn, .handler i .handlerDone]

/-- Server 0 answers a put, takes a snapshot that is installed at server 2, and
restarts. It refuses an append, which server 1 then answers as the next leader. -/
def leaderRestarts : List Event :=
  votedIn 0 0 1 ++ [.call 1 (.put "k" "a"), .send 1, .operation 0, .handler 0 .loop] ++
  commits 0 1 0 1 ++ passed 0 ++ replied 0 ++ [.reply 1 0 0, .initSnapshot 0,
    .raft (.appendMissingEntries 0 1 2), .raft (.installSnapshot 0)] ++ passed 2 ++
  [.restart 0, .call 2 (.append "k" "b"), .send 2, .operation 0, .reply 2 1 1, .send 2] ++
  votedIn 1 1 2 ++ [.operation 0, .handler 1 .loop] ++ commits 1 2 1 2 ++ passed 1 ++ passed 1 ++
  replied 1 ++ [.reply 2 2 0]

theorem cluster_linearizable_restarted : ∃ x,
    exec (step KvSnapshots.countClients KvSnapshots.lookUpPrefix 3) (initial 3 (fun _ => 0))
      leaderRestarts = some x ∧ x.agreed = KvSnapshots.twoClients ∧ x.history.length = 4 ∧
    Linearizes machine Prod.fst ∅ x.history (firsts x.agreed) := by
  obtain ⟨x,hx⟩ := Option.isSome_iff_exists.mp (by decide +kernel :
    (exec (step KvSnapshots.countClients KvSnapshots.lookUpPrefix 3) (initial 3 (fun _ => 0))
      leaderRestarts).isSome = true)
  have hends : ∀ y ∈ exec (step KvSnapshots.countClients KvSnapshots.lookUpPrefix 3)
      (initial 3 (fun _ => 0)) leaderRestarts,
      y.agreed = KvSnapshots.twoClients ∧ y.history.length = 4 := by
    decide +kernel
  obtain ⟨hagreed,hlen⟩ := hends x hx
  exact ⟨x,hx,hagreed,hlen,(cluster_linearizable _ _ 3 _ leaderRestarts x (by decide +kernel) hx
    (hagreed ▸ KvSnapshots.two_clients_round_trip)).2.2⟩

/-- What the server's loop has received, it can handle. -/
theorem serving_handles {s : Service} {rf : Raft Op} {node : Node} {q : Position}
    (h : Serving encode s rf node q) (hs : ∀ op ∈ s.agreed, Executes op)
    (hr : RoundTrips encode decode s.agreed) (m : ApplyMsg Op) (hin : node.inbox = some m) :
    ∃ kv k, KvServer.apply decode node.server.kv m = .ok (kv, k) := by
  obtain ⟨_,_,_,_,hq,-⟩ := h.stream
  rw [hin] at hq
  cases hq with
  | command op hop =>
    obtain ⟨last,hlast,-⟩ := replay_tables s.agreed hs
    obtain ⟨kv,hkv⟩ := KvSnapshots.command_runs h.exact last hlast op hop (q.previous + 1 : ℕ)
    have hexec : executeIfNew node.server.kv (message (q.previous + 1 : ℕ) op) = .ok kv := hkv
    refine ⟨{ kv with lastApplyMsg := message (q.previous + 1 : ℕ) op },
      kv.nWaitingHandlers (q.previous + 1 : ℕ),?_⟩
    rw [KvServer.apply, if_neg (by simp [message]), hexec]
    rfl
  | snapshot index term taken hlow hhigh ht =>
    obtain ⟨kv,k,ha,-⟩ := KvSnapshots.exact_snapshot decode h.exact hr _ term hlow hhigh taken ht
    exact ⟨kv,k,ha⟩

theorem handle_enabled (x : System) (i : ℕ) (m : ApplyMsg Op) (kv : KVServer) (k : ℤ)
    (hin : (x.nodes i).inbox = some m) (hmu : (x.nodes i).server.mu = .free)
    (hrec : (x.nodes i).server.receives = 0)
    (ha : KvServer.apply decode (x.nodes i).server.kv m = .ok (kv, k)) :
    ∃ x', step encode decode n x (.handle i) = some x' := by
  simp [step, hin, serve, withNode, KvHandlers.step, hmu, hrec, ha, Except.toOption]

/-- In every guarded run one iteration of a server's loop returns on the message
that the loop has received from its Raft instance, so the loop handles it when it
gets the mutex. The tables of a server that has handled all that its instance
sent, and whose instance has no installed snapshot to send, are those of a prefix
of the agreed sequence that reaches at least as far as what the instance has
applied. -/
theorem server_loops_keep_up (encode : Requests × Values → Bytes)
    (decode : Bytes → Option (Requests × Values)) (n : ℕ) (nrand : ℤ → ℕ) (es : List Event)
    (x : System) (hm : Meets (step encode decode n) Guarded (initial n nrand) es)
    (h : exec (step encode decode n) (initial n nrand) es = some x)
    (hr : RoundTrips encode decode x.agreed) (i : ℕ) :
    (∀ m, (x.nodes i).inbox = some m →
      (∃ kv k, KvServer.apply decode (x.nodes i).server.kv m = .ok (kv, k)) ∧
      ((x.nodes i).server.mu = .free → (x.nodes i).server.receives = 0 →
        ∃ x', step encode decode n x (.handle i) = some x')) ∧
    ((x.nodes i).inbox = none → (x.nodes i).outbox = none →
      (x.cluster.servers i).snapshotInstalled = false →
      ∃ (k : ℕ) (kv : KVServer), (x.cluster.servers i).lastApplied + 1 ≤ k ∧ k ≤ x.agreed.length ∧
        KvReplay.replay (x.agreed.take k) = .ok kv ∧
        (x.nodes i).server.kv.values = kv.values ∧
        (x.nodes i).server.kv.lastRequest = kv.lastRequest) := by
  obtain ⟨a,p,hgood⟩ := good_run nrand es hm h hr
  have hs := hgood.consistent
  have he : ∀ op ∈ x.agreed, Executes op := fun op hop =>
    hs.calls.executes op (hs.agreed op hop)
  have hnode := hgood.nodes i
  refine ⟨fun m hin => ?_,fun hin hout hinst => ?_⟩
  · obtain ⟨kv,k,ha⟩ := serving_handles hnode he hr m hin
    exact ⟨⟨kv,k,ha⟩,fun hmu hrec => handle_enabled x i m kv k hin hmu hrec ha⟩
  obtain ⟨q,t,hq,-,hreach⟩ := serving_end hnode hout
  rw [hin] at hq
  obtain ⟨rfl,-⟩ := hq
  have happlied := hreach.applied hinst
  have hprev : (p i).previous ≤ (p i).delivered := hnode.exact.previous
  obtain ⟨kv,hkv,ht⟩ := replay_tables (x.agreed.take (p i).delivered)
    (fun o ho => he o (List.mem_of_mem_take ho))
  exact ⟨(p i).delivered,kv,by omega,hnode.exact.within,hkv,
    tables_unique hnode.exact.tables ht⟩

/-- Server 2 has received the snapshot of server 0, which is idle. -/
theorem server_loops_keep_up_snapshot : ∃ x,
    exec (step KvSnapshots.countClients KvSnapshots.lookUpPrefix 3) (initial 3 (fun _ => 0))
      (leaderRestarts.take 29) = some x ∧
    (∃ m x', (x.nodes 2).inbox = some m ∧ m.snapshotValid = true ∧
      step KvSnapshots.countClients KvSnapshots.lookUpPrefix 3 x (.handle 2) = some x') ∧
    ∃ (k : ℕ) (kv : KVServer), 1 ≤ k ∧ KvReplay.replay (x.agreed.take k) = .ok kv ∧
      (x.nodes 0).server.kv.values = kv.values := by
  obtain ⟨x,hx⟩ := Option.isSome_iff_exists.mp (by decide +kernel :
    (exec (step KvSnapshots.countClients KvSnapshots.lookUpPrefix 3) (initial 3 (fun _ => 0))
      (leaderRestarts.take 29)).isSome = true)
  have hends : ∀ y ∈ exec (step KvSnapshots.countClients KvSnapshots.lookUpPrefix 3)
      (initial 3 (fun _ => 0)) (leaderRestarts.take 29),
      y.agreed <+: KvSnapshots.twoClients ∧ (y.nodes 2).inbox.isSome = true ∧
      (∀ m ∈ (y.nodes 2).inbox, m.snapshotValid = true) ∧ (y.nodes 2).server.mu = .free ∧
      (y.nodes 2).server.receives = 0 ∧ (y.nodes 0).inbox = none ∧
      (y.nodes 0).outbox = none ∧ (y.cluster.servers 0).snapshotInstalled = false ∧
      (y.cluster.servers 0).lastApplied = 0 := by
    decide +kernel
  obtain ⟨hagreed,hsome,hvalid,hmu,hrec,hin,hout,hinst,hzero⟩ := hends x hx
  have hkeeps := server_loops_keep_up _ _ 3 _ (leaderRestarts.take 29) x (by decide +kernel) hx
    (round_trips_below hagreed KvSnapshots.two_clients_round_trip)
  obtain ⟨m,hm⟩ := Option.isSome_iff_exists.mp hsome
  obtain ⟨x',hx'⟩ := ((hkeeps 2).1 m hm).2 hmu hrec
  obtain ⟨k',kv',hk,-,hkv,hvalues,-⟩ := (hkeeps 0).2 hin hout hinst
  exact ⟨x,hx,⟨m,x',hm,hvalid m hm,hx'⟩,k',kv',by omega,hkv,hvalues⟩

end Mitdist.KvClusterRuns
