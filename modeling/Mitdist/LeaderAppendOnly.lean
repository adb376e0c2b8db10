import Mitdist.RaftReads
import Mitdist.RaftServers
import Mitdist.RaftSafety

/-!
# A leader only appends

The handlers of requests do not ask whether the receiver leads. A leader
refuses the requests of earlier terms, and there is no other leader that could
send one of its own term, so that while a server leads a term its log is
extended by its own entries and trimmed by its own snapshots only.
-/

set_option autoImplicit false

namespace Mitdist.LeaderAppendOnly
open Mitdist.RaftPeer Mitdist.RaftHandlers Mitdist.RaftWindow Mitdist.RaftCluster
open Mitdist.RaftOutcomes Mitdist.RaftInstance Mitdist.RaftEvents Mitdist.StampedLog
open Mitdist.LeaderProtocol Mitdist.RaftRelation Mitdist.RaftReads Mitdist.RaftSimulation
open Mitdist.RaftIndices Mitdist.RaftServers Mitdist.RaftSafety Mitdist.TransitionSystem

variable {C : Type} {n : ℕ} {c d : Cluster C} {a b : Past C} {i T : ℕ}

def Leads (c : Cluster C) (i T : ℕ) : Prop :=
  (c.servers i).state = .leader ∧ (c.servers i).currentTerm = T

instance decidableLeads (c : Cluster C) (i T : ℕ) : Decidable (Leads c i T) :=
  inferInstanceAs (Decidable (_ ∧ _))

theorem leads_term (hs : Sim n c a) (hl : Leads c i T) :
    a.leader T = some i ∧ a.log i = a.lead T := by
  have ht : a.term i = T := (hs.peer i).term.symm.trans hl.2
  have hlead := (hs.peer i).leader hl.1
  have hlog := hs.sound.inv.log_lead i hlead
  rw [ht] at hlead hlog
  exact ⟨hlead,hlog⟩

/-- A request of the leader's own term would come from the leader itself. -/
theorem append_entries_refused (hs : Sim n c a) (hl : Leads c i T)
    (r : Call (AppendEntriesArgs C) AppendEntriesReply) (hr : r ∈ c.appendCalls)
    (hi : r.callee = i) (ht : r.args.term ≤ T) :
    ∃ reply, appendEntries (c.servers i) r.args = .ok (c.servers i, reply) := by
  obtain ⟨p,hrel⟩ := hs.appends r hr
  obtain ⟨⟨rf,reply⟩,he⟩ := append_entries_reads hs.sound (hs.peer i) r p hrel
  have hprep : stopCandidacy (handleHigherTerm (c.servers i) r.args.term) r.args.term =
      c.servers i := by
    rw [handleHigherTerm, if_neg (by have := hl.2; omega), stopCandidacy, if_neg (by simp [hl.1])]
  refine ⟨reply,?_⟩
  rcases (append_entries_outcome r.args reply _ hprep.symm he).2 with
    ⟨-,rfl,-⟩ | ⟨-,-,-,hnew,-⟩ | ⟨-,-,rfl⟩
  · exact he
  · exfalso
    have hterm : r.args.term = T := by
      have := hl.2
      omega
    have hlead := hrel.leader
    rw [hterm, (leads_term hs hl).1] at hlead
    exact hrel.other ((Option.some.inj hlead).symm.trans hi.symm)
  · exact he

theorem install_snapshot_refused (hs : Sim n c a) (hl : Leads c i T)
    (r : Call InstallSnapshotArgs InstallSnapshotReply) (hr : r ∈ c.snapshotCalls)
    (hi : r.callee = i) (ht : r.args.term ≤ T) :
    ∃ reply, installSnapshot (c.servers i) r.args = .ok (c.servers i, reply) := by
  obtain ⟨p,hrel⟩ := hs.snapshots r hr
  obtain ⟨⟨rf,reply⟩,he⟩ := install_snapshot_reads hs.sound (hs.peer i) r p hrel
  have hprep : handleHigherTerm (c.servers i) r.args.term = c.servers i := by
    rw [handleHigherTerm, if_neg (by have := hl.2; omega)]
  refine ⟨reply,?_⟩
  rcases install_snapshot_outcome r.args reply _ hprep.symm he with ⟨-,rfl⟩ | ⟨hnew,-⟩
  · exact he
  · exfalso
    have hterm : r.args.term = T := by
      have := hl.2
      omega
    have hlead := hrel.leader
    rw [hterm, (leads_term hs hl).1] at hlead
    exact hrel.other ((Option.some.inj hlead).symm.trans hi.symm)

/-- A server that has led a term and leads it after an event led it before:
it cannot be elected in that term again. -/
theorem leads_before (hs : Sim n c a) (hT : a.leader T = some i) (e : Event C)
    (hr : Runs n c e d) (hl : Leads d i T) : Leads c i T := by
  rcases runs_server hs e hr i with hsame | ⟨s,m,-,hran⟩
  · rw [Leads, hsame] at hl
    exact hl
  rcases leads_section s m hran hl.1 with ⟨hstill,-⟩ | ⟨hcand,hbec⟩
  · exact ⟨hstill.1,hstill.2.symm.trans hl.2⟩
  · exfalso
    obtain ⟨nextIndex,matchIndex,hrf⟩ := become_leader_outcome hbec
    have ht : (c.servers i).currentTerm = T := by
      rw [← hl.2, hrf]
    rw [(hs.peer i).term] at ht
    exact ((hs.peer i).candidate hcand).1 (ht ▸ hT)

/-- While a server leads, an event that moves what it has discarded is a
snapshot of its service, and reads the entry there. -/
theorem included_entry (hs : Sim n c a) (hT : a.leader T = some i) (e : Event C)
    (hr : Runs n c e d) (hl : Leads d i T) :
    (d.servers i).lastIncludedIndex = (c.servers i).lastIncludedIndex ∨
    ∃ x, Retains (c.servers i) (d.servers i).lastIncludedIndex x ∧
      x.term = (d.servers i).lastIncludedTerm := by
  have hbefore := leads_before hs hT e hr hl
  rcases runs_server hs e hr i with hsame | ⟨s,m,hsec,hran⟩
  · exact Or.inl (by rw [hsame])
  have ho := peer_ordered hs i
  rcases included_section ho (hs.peer i).persisted s m hran with
    hkeep | ⟨hmove,⟨index,bytes,rfl⟩ | ⟨args,rfl,-⟩⟩
  · exact Or.inl hkeep
  · right
    cases hran with
    | snapshot _ _ _ he =>
      rcases snapshot_outcome index bytes he with hsame | ⟨hlow,-,rf2,ht,hrf⟩
      · rw [hsame] at hmove
        exact absurd hmove (lt_irrefl _)
      · obtain ⟨x,log,hx,-,rfl⟩ := trim_outcome _ ht
        have hindex := entry_index ho _ x hx
        rw [hrf]
        refine ⟨x,⟨?_,?_⟩,rfl⟩
        · show (c.servers i).lastIncludedIndex < x.index
          omega
        · show logEntry (c.servers i) x.index = .ok x
          rw [hindex]
          exact hx
  · exfalso
    obtain ⟨k,r,-,hk,hcallee,rfl⟩ := install_origin e i args hsec
    cases hran with
    | installSnapshot _ _ reply he =>
      have hterm := (install_snapshot_leads r.args reply he hl.1).2.1
      rw [hbefore.2] at hterm
      obtain ⟨y,hy⟩ := install_snapshot_refused hs hbefore r (List.mem_of_getElem? hk) hcallee hterm
      rw [he] at hy
      rw [(Prod.mk.inj (Except.ok.inj hy)).1] at hmove
      exact absurd hmove (lt_irrefl _)

theorem included_term (hs : Sim n c a) (hs' : Sim n d b) (hp : a.log i <+: b.log i)
    (h : (d.servers i).lastIncludedIndex = (c.servers i).lastIncludedIndex) :
    (d.servers i).lastIncludedTerm = (c.servers i).lastIncludedTerm := by
  obtain ⟨p,w⟩ := (hs.peer i).window
  obtain ⟨q,w'⟩ := (hs'.peer i).window
  rw [w.included, w'.included] at h
  obtain rfl : q = p := by omega
  rw [w.includedTerm, w'.includedTerm]
  exact (stamp_at_below _ _ q hp w.bound).symm

/-- At some moment of the run the server led the term and retained the entry
that is the last one it has discarded now. -/
def Held (n : ℕ) (c : Cluster C) (es : List (Event C)) (d : Cluster C) (i T : ℕ) : Prop :=
  ∃ fs gs u x, es = fs ++ gs ∧ exec n c fs = some u ∧ Leads u i T ∧
    Retains (u.servers i) (d.servers i).lastIncludedIndex x ∧
    x.term = (d.servers i).lastIncludedTerm

theorem included_held (hs : Sim n c a) (hc : Leads c i T) (es : List (Event C)) (d : Cluster C)
    (h : exec n c es = some d) (hd : Leads d i T) :
    (d.servers i).lastIncludedIndex = (c.servers i).lastIncludedIndex ∧
      (d.servers i).lastIncludedTerm = (c.servers i).lastIncludedTerm ∨ Held n c es d i T := by
  have hall : ∀ fs : List (Event C), Meets (step n) (fun _ _ => True) c fs :=
    fun fs => meets_true _ fs c
  induction es using List.reverseRecOn generalizing d with
  | nil =>
    obtain rfl := Option.some.inj h
    exact Or.inl ⟨rfl,rfl⟩
  | append_singleton es e ih =>
    rw [RaftCluster.exec, exec_append] at h
    obtain ⟨u,hu,hstep⟩ := Option.bind_eq_some_iff.mp h
    obtain ⟨v,hv,hnil⟩ := exec_cons_some (step n) u d e [] hstep
    obtain rfl := Option.some.inj hnil
    obtain ⟨b,hg,hsu,-⟩ := sim_run _ _ (carried_true n) es hs trivial (hall es) hu
    have hT := (hg.leader T i (leads_term hs hc).1).1
    have hruns := step_runs n u v e hv
    have hbefore := leads_before hsu hT e hruns hd
    obtain ⟨_,b',hst,hsv,-⟩ := sim_step hsu e hruns
    have hgrow := (steps_inv hsu.sound.inv hst).2.1
    have hlog := leader_log_grows hsu hsv hgrow i hbefore.1 hd.1 (hd.2.trans hbefore.2.symm)
    rcases included_entry hsu hT e hruns hd with hkeep | ⟨x,hx,hterm⟩
    · have hkeepTerm := included_term hsu hsv hlog hkeep
      rcases ih u hu hbefore with ⟨h1,h2⟩ | ⟨fs,gs,m,x,rfl,hm,hml,hx,hterm⟩
      · exact Or.inl ⟨hkeep.trans h1,hkeepTerm.trans h2⟩
      · exact Or.inr ⟨fs,gs++[e],m,x,by simp,hm,hml,hkeep ▸ hx,hkeepTerm ▸ hterm⟩
    · exact Or.inr ⟨es,[e],u,x,rfl,hu,hbefore,hx,hterm⟩

theorem whole_retains (hs : Sim n c a) (k : ℕ) (e : LogEntry C) (he : (a.log i)[k]? = some e)
    (hk : (c.servers i).lastIncludedIndex < k) : Retains (c.servers i) k e := by
  obtain ⟨p,w⟩ := (hs.peer i).window
  refine ⟨hk,?_⟩
  rw [w.included] at hk
  exact log_entry_get w k e (by omega) he

/-- What a leader appends while it leads a term has that term. -/
theorem appended_term (hs : Sim n c a) (hs' : Sim n d b) (hg : Grows a b) (hc : Leads c i T)
    (hd : Leads d i T) (k : ℕ) (e : LogEntry C) (hk : (a.log i).length ≤ k)
    (he : (b.log i)[k]? = some e) : e.term = T := by
  obtain ⟨hT,hlog⟩ := leads_term hs hc
  have hbase := (hg.leader T i hT).2
  obtain ⟨r,hr,hstamp⟩ := hs'.sound.inv.lead_split T
  have hle := (base_below hs.sound.inv T).length_le
  rw [← hlog] at hle
  rw [(leads_term hs' hd).2, hr, hbase, List.getElem?_append_right (by omega)] at he
  exact hstamp e (List.mem_of_getElem? he)

/-- Between two moments of a run at which a server leads one term: its last
index does not decrease, what it retains at both is the same, what it retained
and has not discarded since is still there, what it appended has the term, and
what it has discarded ends with an entry that it held itself. A request or a
snapshot of that term or an earlier one leaves the leader as it is. -/
theorem leader_append_only (n : ℕ) (es fs : List (Event C)) (c d : Cluster C) (i T : ℕ)
    (hes : exec n (RaftCluster.initial C n) es = some c) (hfs : exec n c fs = some d)
    (hc : Leads c i T) (hd : Leads d i T) :
    lastLogIndex (c.servers i) ≤ lastLogIndex (d.servers i) ∧
    (∀ x e e', Retains (c.servers i) x e → Retains (d.servers i) x e' → e = e') ∧
    (∀ x e, Retains (c.servers i) x e → (d.servers i).lastIncludedIndex < x →
      Retains (d.servers i) x e) ∧
    (∀ x e, Retains (d.servers i) x e → lastLogIndex (c.servers i) < x → e.term = T) ∧
    ((d.servers i).lastIncludedIndex = (c.servers i).lastIncludedIndex ∧
      (d.servers i).lastIncludedTerm = (c.servers i).lastIncludedTerm ∨ Held n c fs d i T) ∧
    (∀ r ∈ c.appendCalls, r.callee = i → r.args.term ≤ T →
      ∃ reply, appendEntries (c.servers i) r.args = .ok (c.servers i, reply)) ∧
    ∀ r ∈ c.snapshotCalls, r.callee = i → r.args.term ≤ T →
      ∃ reply, installSnapshot (c.servers i) r.args = .ok (c.servers i, reply) := by
  obtain ⟨a,-,hs,-⟩ := sim_run _ _ (carried_true n) es (sim_initial C n) trivial
    (meets_true _ es _) hes
  obtain ⟨b,hg,hs',-⟩ := sim_run _ _ (carried_true n) fs hs trivial (meets_true _ fs c) hfs
  have hlog := leader_log_grows hs hs' hg i hc.1 hd.1 (hd.2.trans hc.2.symm)
  have hsame : ∀ (k : ℕ) (e : LogEntry C), (a.log i)[k]? = some e → (b.log i)[k]? = some e := by
    intro k e he
    obtain ⟨r,hr⟩ := hlog
    rw [← hr, List.getElem?_append_left (List.getElem?_eq_some_iff.mp he).1, he]
  obtain ⟨p,w⟩ := (hs.peer i).window
  obtain ⟨q,w'⟩ := (hs'.peer i).window
  refine ⟨?_,fun x e e' he he' => ?_,fun x e he hx => ?_,fun x e he hx => ?_,
    included_held hs hc fs d hfs hd,fun r hr hi ht => append_entries_refused hs hc r hr hi ht,
    fun r hr hi ht => install_snapshot_refused hs hc r hr hi ht⟩
  · rw [last_log_index w, last_log_index w']
    have := hlog.length_le
    omega
  · obtain ⟨k,rfl,hk⟩ := retains_whole c a hs i x e he
    obtain ⟨k',hkk,hk'⟩ := retains_whole d b hs' i k e' he'
    obtain rfl : k' = k := by omega
    exact Option.some.inj ((hsame k' e hk).symm.trans hk')
  · obtain ⟨k,rfl,hk⟩ := retains_whole c a hs i x e he
    exact whole_retains hs' k e (hsame k e hk) hx
  · obtain ⟨k,rfl,hk⟩ := retains_whole d b hs' i x e he
    rw [last_log_index w] at hx
    exact appended_term hs hs' hg hc hd k e (by omega) hk

/-- The leader learns that its first command is committed. -/
def acknowledged : List (Event ℕ) :=
  replicated ++ [.handleAppendReply 0, .advanceCommitIndex 0]

/-- It appends a second command and discards the first. -/
def compacted : List (Event ℕ) :=
  [.start 0 (some 8), .snapshot 0 1 [3]]

theorem leader_append_only_compacted : ∃ c d,
    RaftCluster.exec 3 (RaftCluster.initial ℕ 3) acknowledged = some c ∧
    RaftCluster.exec 3 c compacted = some d ∧ Leads c 0 1 ∧ Leads d 0 1 ∧
    lastLogIndex (c.servers 0) = 0 ∧ Retains (d.servers 0) 1 ⟨1,1,some 8⟩ ∧
    (d.servers 0).lastIncludedIndex = 0 ∧ Held 3 c compacted d 0 1 := by
  obtain ⟨c,hc⟩ := Option.isSome_iff_exists.mp
    (by decide +kernel : (RaftCluster.exec 3 (RaftCluster.initial ℕ 3) acknowledged).isSome)
  have hd : ∀ c ∈ RaftCluster.exec 3 (RaftCluster.initial ℕ 3) acknowledged,
      (RaftCluster.exec 3 c compacted).isSome := by decide +kernel
  obtain ⟨d,hd⟩ := Option.isSome_iff_exists.mp (hd c hc)
  have h : ∀ c ∈ RaftCluster.exec 3 (RaftCluster.initial ℕ 3) acknowledged,
      ∀ d ∈ RaftCluster.exec 3 c compacted, Leads c 0 1 ∧ Leads d 0 1 ∧
      lastLogIndex (c.servers 0) = 0 ∧ (c.servers 0).lastIncludedIndex = -1 ∧
      Retains (d.servers 0) 1 ⟨1,1,some 8⟩ ∧ (d.servers 0).lastIncludedIndex = 0 := by
    decide +kernel
  obtain ⟨leads,leads',hlast,hincl,hret,hincl'⟩ := h c hc d hd
  have hall := leader_append_only 3 acknowledged compacted c d 0 1 hc hd leads leads'
  obtain ⟨-,-,-,-,⟨hkeep,-⟩ | hheld,-⟩ := hall
  · omega
  · exact ⟨c,d,hc,hd,leads,leads',hlast,hret,hincl',hheld⟩

end Mitdist.LeaderAppendOnly
