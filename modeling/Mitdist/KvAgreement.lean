import Mitdist.KvNodes
import Mitdist.RaftContents

/-!
# What the instances of a key/value cluster agree on

The commands that were first put on a channel for their index are the commands
of a settled prefix, all logs hold operations that clerks have called, and all
snapshots hold the tables of prefixes of the agreed sequence. The next message
of an instance therefore continues its channel, whichever of the two branches
of the apply loop sends it.
-/

set_option autoImplicit false

namespace Mitdist.KvAgreement
open Mitdist.RaftPeer Mitdist.RaftHandlers Mitdist.RaftCluster Mitdist.RaftOutcomes
open Mitdist.RaftInstance Mitdist.RaftIndices Mitdist.RaftEvents Mitdist.RaftServers
open Mitdist.RaftRelation Mitdist.RaftSimulation Mitdist.RaftSafety Mitdist.Persistence
open Mitdist.LeaderProtocol Mitdist.CommitSafety Mitdist.MatchIndex Mitdist.StateMachineSafety
open Mitdist.RaftContents Mitdist.Linearization Mitdist.KvServer Mitdist.KvReplay
open Mitdist.KvSnapshots Mitdist.KvNodes
open Mitdist.KvCluster (agree)

section
variable (encode : Requests × Values → Bytes)

/-- There is no snapshot yet, or it holds the tables of a prefix. -/
def Image (agreed : List Op) (x : ℤ) (bytes : Bytes) : Prop :=
  x = -1 ∧ bytes = [] ∨ 0 ≤ x ∧ Taken encode agreed (x + 1, bytes)

def Called (history : List (Act Op String)) (e : LogEntry Op) : Prop :=
  ∃ op ∈ invoked history, e.command = some op

def Commanded (n : ℕ) (a : Past Op) (agreed : List Op) : Prop :=
  ∃ t q, Settled (majorities n) a t q ∧ q.map LogEntry.command = agreed.map some

structure Agrees (n : ℕ) (history : List (Act Op String)) (agreed : List Op) (c : Cluster Op)
    (a : Past Op) : Prop where
  sim : Sim n c a
  commits : Commits n c a
  settled : Commanded n a agreed
  contents : Contents (Called history) (Image encode agreed) c
  pending : Pending c

end

variable {encode : Requests × Values → Bytes} {n : ℕ} {history history' : List (Act Op String)}
  {agreed agreed' : List Op} {c c' : Cluster Op} {a : Past Op}

theorem agrees_initial (encode : Requests × Values → Bytes) (n : ℕ) :
    Agrees encode n [] [] (RaftCluster.initial Op n) LeaderProtocol.initial where
  sim := sim_initial Op n
  commits := commits_initial Op n
  settled := ⟨0,[],Or.inl rfl,rfl⟩
  contents := contents_initial n _ _ (Or.inl ⟨rfl,rfl⟩)
  pending i hi := by simp [RaftCluster.initial, make] at hi

theorem taken_grows (h : agreed <+: agreed') (call : ℤ × Bytes) (ht : Taken encode agreed call) :
    Taken encode agreed' call := by
  obtain ⟨i,kv,hi,hlen,hkv,hbytes⟩ := ht
  exact ⟨i,kv,hi,hlen.trans h.length_le,by rw [take_agreed h i hlen, hkv],hbytes⟩

/-- More calls and a longer agreed sequence. -/
theorem agrees_grows (h : Agrees encode n history agreed c a)
    (hk : ∀ op ∈ invoked history, op ∈ invoked history') (ha : agreed <+: agreed')
    (hs : Commanded n a agreed') : Agrees encode n history' agreed' c a :=
  { h with
    settled := hs
    contents := contents_mono _ _ _ _ h.contents
      (fun _ ⟨op,hop,hc⟩ => ⟨op,hk op hop,hc⟩)
      (fun _ _ hi => hi.imp_right (And.imp_right (taken_grows ha _))) }

theorem agrees_runs (h : Agrees encode n history agreed c a) (e : Event Op) (hr : Runs n c e c')
    (hg : PollsOnly c e ∧ Covers c e)
    (hp : ∀ i command, e = .start i command → ∃ op ∈ invoked history, command = some op)
    (hi : ∀ i index bytes, e = .snapshot i index bytes → Taken encode agreed (index, bytes)) :
    ∃ a', Agrees encode n history agreed c' a' := by
  obtain ⟨i,a',hst,hsim,heff⟩ := sim_step h.sim e hr
  have hgrows := (steps_inv h.sim.sound.inv hst).2.1
  obtain ⟨t,q,hq,hmap⟩ := h.settled
  refine ⟨a',hsim,commits_carried _ _ _ _ _ _ h.sim h.commits hg hr hst hsim heff,
    ⟨t,q,settled_grows hgrows t t q le_rfl hq,hmap⟩,?_,?_⟩
  · refine contents_runs h.sim _ _ h.contents e hr (fun i command he _ => hp i command he) ?_
    intro j index bytes he hlow
    obtain ⟨b,w⟩ := (h.sim.peer j).window
    have hincl := w.included
    exact Or.inr ⟨by omega,by rw [Int.sub_add_cancel]; exact hi j index bytes he⟩
  · refine pending_runs h.sim _ _ h.contents ?_ h.pending e hr
    rintro bytes (⟨-,hb⟩ | ⟨hx,-⟩)
    · exact hb
    · omega

/-- What has been sent stays behind the instance, except for its own sends and
crashes. -/
theorem reaches_runs (hs : Sim n c a) (e : Event Op) (hr : Runs n c e c') (j : ℕ)
    (ha : e ≠ .apply j) (hc : e ≠ .crash j) (q : ℕ) (t : ℤ) (h : Reaches (c.servers j) q t) :
    Reaches (c'.servers j) q t := by
  rcases runs_server hs e hr j with hj | ⟨s,m,hsec,hran⟩
  · rwa [hj]
  · obtain ⟨-,happlied,hcase⟩ := moved_section (peer_ordered hs j) s m hran
      (fun hs => ha (apply_origin e j (hs ▸ hsec))) (fun hs => hc (crash_origin e j (hs ▸ hsec)))
    have hsent := h.sent
    rcases hcase with ⟨hx,hi⟩ | ⟨index,bytes,-,hlow,hx,hi⟩ | ⟨args,-,-,hlow,hx,hi⟩
    · exact ⟨hx ▸ hsent,by rw [hx, hi]; exact h.waiting,by rw [hi, happlied]; exact h.applied⟩
    · exact ⟨by omega,fun _ => by omega,by rw [hi, happlied]; exact h.applied⟩
    · exact ⟨by omega,fun _ => by omega,by simp [hi]⟩

theorem reaches_crash (h : Agrees encode n history agreed c a)
    (hne : ∀ i kv, KvReplay.replay (agreed.take i) = .ok kv → state encode kv ≠ []) (j : ℕ) :
    Reaches (make n j (c.servers j).persister) 0 (-1) := by
  have hk := h.contents.kept j
  obtain ⟨b,w⟩ := (h.sim.peer j).window
  have hincl := w.included
  have hsaved : (readPersist (c.servers j).persister.raftstate).lastIncludedIndex =
      (c.servers j).lastIncludedIndex := by
    rw [hk.raftstate]
    rfl
  refine ⟨?_,fun _ => ?_,fun hinst => ?_⟩
  · simp only [make, hsaved]
    omega
  · simp only [make, hsaved]
    omega
  · simp only [make, hsaved, hk.snapshot] at hinst ⊢
    rcases h.contents.images j with ⟨hx,-⟩ | ⟨-,i,kv,-,-,hkv,hbytes⟩
    · rw [hx]
      rfl
    · exact absurd (hbytes.symm.trans (by simpa using hinst)) (hne i kv hkv)

/-- The entries below a settled one are those that are agreed on. -/
theorem commanded_next (h : Sim n c a) (hs : Commanded n a agreed) (t k : ℕ)
    (r : List (LogEntry Op)) (e : LogEntry Op) (hr : Settled (majorities n) a t r)
    (hk : r[k]? = some e) (op : Op) (hop : e.command = some op) :
    (k < agreed.length → agreed[k]? = some op) ∧
      (k = agreed.length → Commanded n a (agreed ++ [op])) := by
  obtain ⟨u,q,hq,hmap⟩ := hs
  have hlen : q.length = agreed.length := by simpa using congrArg List.length hmap
  have hrk := (List.getElem?_eq_some_iff.mp hk).1
  constructor
  · intro hlt
    have hqk : k < q.length := hlen ▸ hlt
    have hq' : q[k]? = some q[k] := List.getElem?_eq_getElem hqk
    have he := settled_agree h.sound.inv u t q r hq hr k _ e hq' hk
    have hcmd := congrArg (fun l => l[k]?) hmap
    simp only [List.getElem?_map, hq', he, Option.map_some, hop] at hcmd
    rw [List.getElem?_eq_getElem hlt, Option.map_some, Option.some.injEq,
      Option.some.injEq] at hcmd
    rw [List.getElem?_eq_getElem hlt, hcmd]
  · rintro rfl
    have hpre : q <+: r := by
      rcases settled_comparable h.sound.inv u t q r hq hr with hpre | hpre
      · exact hpre
      · exact absurd hpre.length_le (by omega)
    obtain ⟨rest,rfl⟩ := hpre
    rw [List.getElem?_append_right hlen.le, hlen, Nat.sub_self] at hk
    obtain ⟨d,rest,rfl⟩ := List.exists_cons_of_ne_nil (l := rest) (by rintro rfl; simp at hk)
    obtain rfl := Option.some.inj hk
    refine ⟨t,q ++ [d],settled_below t _ _ hr ⟨rest,by simp⟩,?_⟩
    rw [List.map_append, hmap, List.map_append, List.map_singleton, List.map_singleton, hop]

/-- What is agreed on after a message of an instance, and how the message
continues the instance's channel. -/
theorem apply_carries (h : Agrees encode n history agreed c a) (i : ℕ) (rf : Raft Op)
    (m : ApplyMsg Op) (hreads : Reads c (.apply i))
    (hlt : (c.servers i).lastApplied < (c.servers i).commitIndex)
    (he : apply (c.servers i) = .ok (rf, m)) (q : ℕ) (t : ℤ) (hq : q ≤ agreed.length)
    (hreach : Reaches (c.servers i) q t) :
    (agree agreed m = agreed ∨ ∃ op ∈ invoked history, agree agreed m = agreed ++ [op]) ∧
    Commanded n a (agree agreed m) ∧
    ∃ q' t', Carries encode (agree agreed m) q t m q' t' ∧ Reaches rf q' t' := by
  rcases apply_outcome m he with ⟨hinst,hrf,hm⟩ | ⟨hinst,hrf,e,hentry,hm⟩
  · have hsame : agree agreed m = agreed := by
      rw [agree, hm, if_neg (by simp; omega)]
    rw [hsame]
    refine ⟨Or.inl rfl,h.settled,?_⟩
    rcases h.contents.images i with ⟨hx,-⟩ | ⟨-,k,kv,hk,hlen,hkv,hbytes⟩
    · exact absurd hx (h.pending i hinst)
    · simp only at hk hbytes
      have hwait := hreach.waiting hinst
      refine ⟨k,k,?_,?_⟩
      · have hmsg : m = snapshotMessage k (c.servers i).lastIncludedTerm (state encode kv) := by
          rw [hm, snapshotMessage, hk, hbytes]
        rw [hmsg]
        exact .snapshot k _ kv (by omega) hlen hkv
      · rw [hrf]
        exact ⟨hk.ge,fun hi => by simp at hi,fun _ => hk.symm⟩
  · obtain ⟨u,k,r,d,hset,hk,hidx,hcmd⟩ := apply_delivers h.sim h.commits i rf m hreads hlt he
      (by rw [hm])
    have hcalled : Called history e := by
      rw [logEntry, if_neg (hreads.resolve_left (by simp [hinst])), load_ok] at hentry
      exact h.contents.logs i e (List.mem_of_getElem? hentry.2)
    obtain ⟨op,hop,hcommand⟩ := hcalled
    have happlied := hreach.applied hinst
    have hkq : k = q := by
      rw [hm] at hidx
      simp only at hidx
      omega
    subst hkq
    have hdop : d.command = some op := by rw [← hcmd, hm, ← hcommand]
    obtain ⟨hold,hnew⟩ := commanded_next h.sim h.settled u k r d hset hk op hdop
    have hmsg : m = message (k + 1 : ℕ) op := by
      rw [hm, message, hcommand]
      congr 1
      omega
    have hnext : Reaches rf (k + 1) t := by
      rw [hrf]
      exact ⟨hreach.sent,fun hi => by simp [hinst] at hi,fun _ => by simp only; omega⟩
    rcases hq.lt_or_eq with hlt | heq
    · have hsame : agree agreed m = agreed := by
        rw [agree, if_neg (by rw [hidx]; omega)]
      rw [hsame]
      exact ⟨Or.inl rfl,h.settled,k+1,t,hmsg ▸ .command op (hold hlt),hnext⟩
    · have hgrow : agree agreed m = agreed ++ [op] := by
        rw [agree, if_pos (by rw [hidx, heq]), hcmd, hdop]
        rfl
      rw [hgrow]
      refine ⟨Or.inr ⟨op,hop,rfl⟩,hnew heq,k+1,t,hmsg ▸ .command op ?_,hnext⟩
      rw [List.getElem?_append_right heq.ge, heq, Nat.sub_self]
      rfl

end Mitdist.KvAgreement
