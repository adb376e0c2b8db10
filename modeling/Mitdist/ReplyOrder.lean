import Mitdist.LogRepresentation
import Mitdist.LeaderAppendOnly

/-!
# What a leader knows about a follower

The handler of a reply assigns what the reply stands for and does not compare
it with what the leader knows already, so that a reply that is overtaken moves
the leader's view back. A request covers the leader's log up to its end at the
time, and no request that was sent later covers less. If the acknowledgements
of a server are handled in the order in which their requests were sent, and a
rejection only while it lies beyond what is known to match, the view is never
moved back: once a server has acknowledged a request, every request that was
sent to it begins within what matches.
-/

set_option autoImplicit false

namespace Mitdist.ReplyOrder
open Mitdist.RaftPeer Mitdist.RaftHandlers Mitdist.RaftWindow Mitdist.RaftCluster
open Mitdist.RaftOutcomes Mitdist.RaftInstance Mitdist.RaftEvents Mitdist.LeaderProtocol
open Mitdist.RaftRelation Mitdist.RaftHints Mitdist.RaftSimulation Mitdist.RaftServers
open Mitdist.LogRepresentation Mitdist.TransitionSystem
open Mitdist.LeaderAppendOnly (Leads leads_term leads_before)

variable {C : Type} {n : ℕ} {c d : Cluster C} {a b : Past C} {i j T : ℕ} {m v : ℤ}

abbrev AppendCall (C : Type) := Call (AppendEntriesArgs C) AppendEntriesReply

/-- The last index that a request covers. -/
def covers (r : AppendCall C) : ℤ := r.args.prevLogIndex + r.args.entries.length

def Of (i j T : ℕ) (r : AppendCall C) : Prop := r.caller = i ∧ r.callee = j ∧ r.args.term = T

instance decidableOf (i j T : ℕ) (r : AppendCall C) : Decidable (Of i j T r) :=
  inferInstanceAs (Decidable (_ ∧ _ ∧ _))

/-- The request was answered with success and the leader has handled the answer. -/
def Acknowledged (r : AppendCall C) : Prop :=
  r.returned = true ∧ r.reply.any AppendEntriesReply.success = true

instance decidableAcknowledged (r : AppendCall C) : Decidable (Acknowledged r) :=
  inferInstanceAs (Decidable (_ ∧ _))

/-- A leader handles an acknowledgement before those of later requests to the
same server, and a rejection only for a request that begins beyond what is
known to match. -/
def InOrder (c : Cluster C) : Event C → Prop
  | .handleAppendReply k =>
    ∀ r ∈ c.appendCalls[k]?, ∀ y ∈ r.reply, Leads c r.caller r.args.term →
      (y.success = true → ∀ s ∈ c.appendCalls.drop (k+1),
        Of r.caller r.callee r.args.term s → ¬ Acknowledged s) ∧
      (y.success = false → ∀ m ∈ (c.servers r.caller).matchIndex[r.callee]?,
        m < r.args.prevLogIndex)
  | _ => True

instance decidableInOrder (c : Cluster C) : ∀ e, Decidable (InOrder c e)
  | .handleAppendReply k => inferInstanceAs (Decidable (∀ r ∈ c.appendCalls[k]?, ∀ y ∈ r.reply,
      Leads c r.caller r.args.term → (_ → ∀ s ∈ c.appendCalls.drop (k+1), _ → ¬ Acknowledged s) ∧
        (_ → ∀ m ∈ (c.servers r.caller).matchIndex[r.callee]?, _)))
  | .election _ | .requestVote _ _ | .requestVoteReply _ _ | .requestVoteFailed _ _
  | .countVote _ _ | .gatherVotes _ | .concludeElection _ | .appendMissingEntries _ _ _
  | .appendEntries _ | .installSnapshot _ | .installSnapshotReply _ | .start _ _
  | .advanceCommitIndex _ | .apply _ | .snapshot _ _ _ | .crash _ => .isTrue trivial

/-- What a leader of a term knows about a server, compared with the requests
that it has sent to the server. -/
structure View (calls : List (AppendCall C)) (i j T : ℕ) (m v : ℤ) : Prop where
  above : m < v
  source : m = -1 ∨ ∃ (k : ℕ) (s : AppendCall C), calls[k]? = some s ∧ Of i j T s ∧
    Acknowledged s ∧ covers s = m
  next : ∀ s ∈ calls, Of i j T s → v-1 ≤ max m (covers s)
  prev : ∀ r ∈ calls, ∀ s ∈ calls, Of i j T r → Of i j T s →
    r.args.prevLogIndex ≤ max m (covers s)

/-- A request of a term covers no less than the earlier ones. -/
def Extended (calls : List (AppendCall C)) : Prop :=
  calls.Pairwise (fun r s => r.caller = s.caller → r.args.term = s.args.term →
    covers r ≤ covers s)

def header (r : AppendCall C) : ℕ × ℕ × AppendEntriesArgs C := (r.caller,r.callee,r.args)

/-- Requests are answered and answers are handled. -/
structure Updated (calls calls' : List (AppendCall C)) : Prop where
  headers : calls'.map header = calls.map header
  kept : ∀ (k : ℕ) (s : AppendCall C), calls[k]? = some s → Acknowledged s →
    ∃ s', calls'[k]? = some s' ∧ header s' = header s ∧ Acknowledged s'

theorem updated_refl (calls : List (AppendCall C)) : Updated calls calls :=
  ⟨rfl,fun _ s hk hs => ⟨s,hk,rfl,hs⟩⟩

theorem updated_set (calls : List (AppendCall C)) (k : ℕ) (r r' : AppendCall C)
    (hk : calls[k]? = some r) (hh : header r' = header r)
    (hack : Acknowledged r → Acknowledged r') : Updated calls (calls.set k r') := by
  have hlt := (List.getElem?_eq_some_iff.mp hk).1
  constructor
  · apply List.ext_getElem?
    intro x
    rw [List.getElem?_map, List.getElem?_map, List.getElem?_set]
    split_ifs with hx
    · subst hx
      simp [hk, hh]
    · rfl
  · intro x s hx hs
    rw [List.getElem?_set]
    by_cases he : k = x
    · subst he
      obtain rfl := Option.some.inj (hk.symm.trans hx)
      exact ⟨r',by simp [hlt],hh,hack hs⟩
    · exact ⟨s,by rw [if_neg he, hx],rfl,hs⟩

theorem updated_mem {calls calls' : List (AppendCall C)} (h : Updated calls calls')
    (s : AppendCall C) (hs : s ∈ calls') : ∃ r ∈ calls, header r = header s := by
  have hmem : header s ∈ calls.map header := h.headers ▸ List.mem_map_of_mem hs
  exact List.mem_map.mp hmem

theorem of_header {r s : AppendCall C} (h : header r = header s) (hs : Of i j T s) :
    Of i j T r ∧ r.args = s.args := by
  obtain ⟨h1,h2,h3⟩ : r.caller = s.caller ∧ r.callee = s.callee ∧ r.args = s.args := by
    simpa [header] using h
  exact ⟨⟨h1.trans hs.1,h2.trans hs.2.1,(congrArg _ h3).trans hs.2.2⟩,h3⟩

theorem view_updated {calls calls' : List (AppendCall C)} (hu : Updated calls calls')
    (h : View calls i j T m v) : View calls' i j T m v := by
  refine ⟨h.above,?_,fun s hs ho => ?_,fun r hr s hs hor hos => ?_⟩
  · rcases h.source with hm | ⟨k,s,hk,ho,hack,hc⟩
    · exact Or.inl hm
    · obtain ⟨s',hk',hh,hack'⟩ := hu.kept k s hk hack
      obtain ⟨ho',hargs⟩ := of_header hh ho
      exact Or.inr ⟨k,s',hk',ho',hack',by rw [← hc, covers, covers, hargs]⟩
  · obtain ⟨s0,hs0,hh⟩ := updated_mem hu s hs
    obtain ⟨ho0,hargs⟩ := of_header hh ho
    have := h.next s0 hs0 ho0
    rwa [covers, hargs] at this
  · obtain ⟨r0,hr0,hhr⟩ := updated_mem hu r hr
    obtain ⟨s0,hs0,hhs⟩ := updated_mem hu s hs
    obtain ⟨hor0,hargsr⟩ := of_header hhr hor
    obtain ⟨hos0,hargss⟩ := of_header hhs hos
    have := h.prev r0 hr0 s0 hs0 hor0 hos0
    rwa [covers, hargsr, hargss] at this

/-- A request begins where the leader looks next and covers all of its log. -/
theorem view_sent {calls : List (AppendCall C)} (h : View calls i j T m v) (r : AppendCall C)
    (hprev : Of i j T r → r.args.prevLogIndex = v-1 ∧ r.args.prevLogIndex ≤ covers r ∧
      ∀ s ∈ calls, Of i j T s → s.args.prevLogIndex ≤ covers r) :
    View (calls ++ [r]) i j T m v := by
  refine ⟨h.above,?_,fun s hs ho => ?_,fun r' hr' s hs hor hos => ?_⟩
  · rcases h.source with hm | ⟨k,s,hk,hrest⟩
    · exact Or.inl hm
    · have hlt := (List.getElem?_eq_some_iff.mp hk).1
      exact Or.inr ⟨k,s,by rw [List.getElem?_append_left hlt, hk],hrest⟩
  · rcases List.mem_append.mp hs with hs | hs
    · exact h.next s hs ho
    · obtain rfl := List.mem_singleton.mp hs
      obtain ⟨h1,h2,-⟩ := hprev ho
      rw [← h1]
      exact le_max_of_le_right h2
  · rcases List.mem_append.mp hr' with hold | hnew <;> rcases List.mem_append.mp hs with old | new
    · exact h.prev r' hold s old hor hos
    · obtain rfl := List.mem_singleton.mp new
      exact le_max_of_le_right ((hprev hos).2.2 r' hold hor)
    · obtain rfl := List.mem_singleton.mp hnew
      rw [(hprev hor).1]
      exact h.next s old hos
    · obtain rfl := List.mem_singleton.mp hnew
      obtain rfl := List.mem_singleton.mp new
      exact le_max_of_le_right (hprev hor).2.1

theorem view_acknowledged {calls : List (AppendCall C)} (h : View calls i j T m v) (k : ℕ)
    (r : AppendCall C) (hk : calls[k]? = some r) (ho : Of i j T r) (hack : Acknowledged r)
    (hle : m ≤ covers r) : View calls i j T (covers r) (covers r + 1) where
  above := by omega
  source := Or.inr ⟨k,r,hk,ho,hack,rfl⟩
  next s _ _ := by
    have := le_max_left (covers r) (covers s)
    omega
  prev r' hr' s hs hor hos := (h.prev r' hr' s hs hor hos).trans (max_le_max_right _ hle)

/-- A request that begins beyond what matches was rejected: nothing has been
acknowledged yet. -/
theorem view_rejected {calls : List (AppendCall C)} (h : View calls i j T m v) (r : AppendCall C)
    (hr : r ∈ calls) (ho : Of i j T r) (hlt : m < r.args.prevLogIndex) (x : ℤ) (hlow : 0 ≤ x)
    (hhigh : x ≤ r.args.prevLogIndex) : View calls i j T m x := by
  have hm : m = -1 := by
    rcases h.source with hm | ⟨k,s,hk,hos,-,hc⟩
    · exact hm
    · have := h.prev r hr s (List.mem_of_getElem? hk) ho hos
      rw [hc, max_self] at this
      omega
  refine ⟨by omega,Or.inl hm,fun s hs hos => ?_,h.prev⟩
  have := h.prev r hr s hs ho hos
  omega

theorem runs_calls (e : Event C) (hr : Runs n c e d) :
    Updated c.appendCalls d.appendCalls ∨
      ∃ x server args, d.servers = c.servers ∧
        appendMissingEntries (c.servers x) (c.servers x).currentTerm server =
          .ok (some (.appendEntries args)) ∧ (c.servers x).state = .leader ∧ server < n ∧
        d.appendCalls = c.appendCalls ++
          [{ caller := x, epoch := c.epoch x, callee := server, args := args }] := by
  cases hr with
  | appendMissingEntries x term server request hx hs hne he =>
    rcases request with - | args | args
    · exact Or.inl (updated_refl _)
    · right
      rcases append_missing_outcome term server _ he with hn | ⟨hl,ht,-⟩
      · simp at hn
      · subst ht
        exact ⟨x,server,args,rfl,he,hl,hs,rfl⟩
    · exact Or.inl (updated_refl _)
  | appendEntries k r rf reply hk hn he =>
    exact Or.inl (updated_set _ k r _ hk rfl (fun hack => by simp [Acknowledged, hn] at hack))
  | handleAppendReply k r rf reply hk hy he =>
    exact Or.inl (updated_set _ k r _ hk rfl (fun hack => ⟨rfl,hack.2⟩))
  | _ => exact Or.inl (updated_refl _)

/-- What a leader sends: the whole of its log from the next index on. -/
theorem sent_request (hs : Sim n c a) (hb : Bounded c a) (x server : ℕ)
    (args : AppendEntriesArgs C) (hl : (c.servers x).state = .leader) (hserver : server < n)
    (h : appendMissingEntries (c.servers x) (c.servers x).currentTerm server =
      .ok (some (.appendEntries args))) :
    args.term = a.term x ∧ (c.servers x).nextIndex[server]? = some (args.prevLogIndex+1) ∧
      args.prevLogIndex + args.entries.length = (a.log x).length-1 := by
  obtain ⟨q,w⟩ := (hs.peer x).window
  have hlast := last_log_index w
  obtain ⟨v,hv,hlow,hhigh⟩ := (represented hs hb x).next hl server hserver
  obtain ⟨p,rfl⟩ : ∃ p : ℕ, v = p := ⟨v.toNat,by omega⟩
  rw [append_missing_entries w server p hl (by omega) hv] at h
  split_ifs at h with hc
  · simp at h
  · obtain rfl := Request.appendEntries.inj (Option.some.inj (Except.ok.inj h))
    refine ⟨(hs.peer x).term,by simpa using hv,?_⟩
    simp only [List.length_drop]
    omega

/-- No request of a leader covers more than its log. -/
theorem covers_within (hs : Sim n c a) (hc : Leads c i T) (r : AppendCall C)
    (hr : r ∈ c.appendCalls) (ht : r.args.term = T) :
    -1 ≤ r.args.prevLogIndex ∧ r.args.prevLogIndex ≤ covers r ∧
      covers r ≤ (a.log i).length-1 := by
  obtain ⟨p,hrel⟩ := hs.appends r hr
  have hprev := hrel.prev
  have hlen := hrel.length
  rw [ht, ← (leads_term hs hc).2] at hlen
  unfold covers
  omega

theorem extended_step (hs : Sim n c a) (hb : Bounded c a) (hx : Extended c.appendCalls)
    (e : Event C) (hr : Runs n c e d) : Extended d.appendCalls := by
  rcases runs_calls e hr with hu | ⟨x,server,args,-,hsend,hl,hserver,hcalls⟩
  · have hmap : ∀ calls : List (AppendCall C), Extended calls ↔ (calls.map header).Pairwise
        (fun r s => r.1 = s.1 → r.2.2.term = s.2.2.term →
          r.2.2.prevLogIndex + (r.2.2.entries.length:ℤ) ≤
            s.2.2.prevLogIndex + (s.2.2.entries.length:ℤ)) := by
      intro calls
      rw [List.pairwise_map]
      rfl
    rw [hmap] at hx ⊢
    rw [hu.headers]
    exact hx
  · rw [hcalls]
    refine List.pairwise_append.mpr ⟨hx,List.pairwise_singleton _ _,fun r hr s hs' _ ht => ?_⟩
    obtain rfl := List.mem_singleton.mp hs'
    obtain ⟨hterm,-,hcov⟩ := sent_request hs hb x server args hl hserver hsend
    have hlead : Leads c x (a.term x) := ⟨hl,(hs.peer x).term⟩
    have hwithin := (covers_within hs hlead r hr (ht.trans hterm)).2.2
    show covers r ≤ args.prevLogIndex + (args.entries.length:ℤ)
    omega

/-- An event that leaves a leader's view alone leaves it consistent with the
requests in flight. -/
theorem view_calls (hs : Sim n c a) (hb : Bounded c a) (e : Event C) (hr : Runs n c e d)
    (hc : Leads c i T) (hv : (c.servers i).nextIndex[j]? = some v)
    (h : View c.appendCalls i j T m v) : View d.appendCalls i j T m v := by
  rcases runs_calls e hr with hu | ⟨x,server,args,-,hsend,hl,hserver,hcalls⟩
  · exact view_updated hu h
  · rw [hcalls]
    refine view_sent h _ (fun ho => ?_)
    obtain ⟨rfl,rfl,-⟩ := ho
    obtain ⟨-,hnext,hcov⟩ := sent_request hs hb x server args hl hserver hsend
    have hprev : v = args.prevLogIndex+1 := Option.some.inj (hv.symm.trans hnext)
    refine ⟨by simp only; omega,?_,fun s hs' ho => ?_⟩
    · show args.prevLogIndex ≤ args.prevLogIndex + (args.entries.length:ℤ)
      omega
    · have hwithin : s.args.prevLogIndex ≤ (a.log x).length-1 :=
        (covers_within hs hc s hs' ho.2.2).2.1.trans (covers_within hs hc s hs' ho.2.2).2.2
      show s.args.prevLogIndex ≤ args.prevLogIndex + (args.entries.length:ℤ)
      omega

/-- The source of what matches was sent no later than a request whose
acknowledgement is handled in order. -/
theorem in_order_above (hs : Sim n c a) (hx : Extended c.appendCalls) (hc : Leads c i T)
    (h : View c.appendCalls i j T m v) (k : ℕ) (r : AppendCall C)
    (hk : c.appendCalls[k]? = some r) (ho : Of i j T r)
    (hin : ∀ s ∈ c.appendCalls.drop (k+1), Of i j T s → ¬ Acknowledged s) : m ≤ covers r := by
  have hlow := covers_within hs hc r (List.mem_of_getElem? hk) ho.2.2
  rcases h.source with hm | ⟨x,s,hs',hos,hack,rfl⟩
  · omega
  · rcases lt_trichotomy x k with hlt | rfl | hgt
    · obtain ⟨hk',rfl⟩ := List.getElem?_eq_some_iff.mp hk
      obtain ⟨hx',rfl⟩ := List.getElem?_eq_some_iff.mp hs'
      exact List.pairwise_iff_getElem.mp hx x k hx' hk' hlt (hos.1.trans ho.1.symm)
        (hos.2.2.trans ho.2.2.symm)
    · rw [Option.some.inj (hs'.symm.trans hk)]
    · have hmem : s ∈ c.appendCalls.drop (k+1) := by
        refine List.mem_iff_getElem?.mpr ⟨x-(k+1),?_⟩
        rw [List.getElem?_drop, Nat.add_sub_cancel' (by omega), hs']
      exact absurd hack (hin s hmem hos)

theorem start_view (rf rf' : Raft C) (command : Option C) (r : ℤ × ℕ × Bool)
    (h : start rf command = .ok (rf', r)) (hne : j ≠ rf.me) :
    rf'.nextIndex = rf.nextIndex ∧ rf'.matchIndex[j]? = rf.matchIndex[j]? := by
  rw [start] at h
  split_ifs at h with hl
  · rw [bind_ok] at h
    obtain ⟨rf1,happ,h⟩ := h
    rw [appendEntryLocal, bind_ok] at happ
    obtain ⟨matched,hm,happ⟩ := happ
    obtain ⟨-,rfl⟩ := (store_ok _ _ _ _).mp hm
    rw [← (Prod.mk.inj (Except.ok.inj h)).1, ← Except.ok.inj happ]
    exact ⟨rfl,List.getElem?_set_ne (Ne.symm hne)⟩
  · rw [← (Prod.mk.inj (Except.ok.inj h)).1]
    exact ⟨rfl,rfl⟩

/-- A rejection that a leader handles points at or before the place that the
request began after. -/
theorem rejected_next (hs : Sim n c a) (hb : Bounded c a) (r : AppendCall C)
    (hr : r ∈ c.appendCalls) (reply : AppendEntriesReply) (hy : r.reply = some reply)
    (hc : Leads c r.caller r.args.term) (hle : reply.term ≤ r.args.term)
    (hf : reply.success = false) (rf : Raft C)
    (he : handleAppendReply (c.servers r.caller) r.callee r.args reply = .ok rf) :
    rf.matchIndex = (c.servers r.caller).matchIndex ∧ ∃ x, 0 ≤ x ∧ x ≤ r.args.prevLogIndex ∧
      rf.nextIndex = (c.servers r.caller).nextIndex.set r.callee x := by
  obtain ⟨p,hrel⟩ := hs.appends r hr
  obtain ⟨q,w⟩ := (hs.peer r.caller).window
  have hlen := hrel.length
  rw [← (leads_term hs hc).2] at hlen
  have hnext : r.callee < (c.servers r.caller).nextIndex.length :=
    (hs.peer r.caller).nextLength ▸ hrel.callee
  rw [append_reply_rejected w r.callee r.args reply p hc.1 hc.2 hle hf hnext hrel.prev
    (by omega)] at he
  obtain rfl := Except.ok.inj he
  have hterm := (hrel.replied reply hy).1
  obtain ⟨h0,hindex⟩ := hb.2 r hr reply hy hf (by omega)
  rw [hrel.prev] at hindex
  obtain ⟨hlow,hhigh⟩ := retry_bounds (a.log r.caller) q p reply.logInfo h0 hindex
  exact ⟨rfl,_,hlow,by rw [hrel.prev]; exact hhigh,rfl⟩

theorem runs_handled (k : ℕ) (r : AppendCall C) (hk : c.appendCalls[k]? = some r)
    (hr : Runs n c (.handleAppendReply k) d) :
    d.appendCalls[k]? = some { r with returned := true } := by
  cases hr with
  | handleAppendReply _ r0 rf reply hk0 hy he =>
    obtain rfl := Option.some.inj (hk.symm.trans hk0)
    have hlt := (List.getElem?_eq_some_iff.mp hk).1
    simp [hlt]

/-- The leader handles a reply: it moves what matches forward, or the next
index while nothing matches. -/
theorem view_reply (hs : Sim n c a) (hb : Bounded c a) (hx : Extended c.appendCalls) (k : ℕ)
    (hin : InOrder c (.handleAppendReply k)) (hr : Runs n c (.handleAppendReply k) d)
    (r : AppendCall C) (hk : c.appendCalls[k]? = some r) (reply : AppendEntriesReply)
    (hy : r.reply = some reply) (hcaller : r.caller = i)
    (he : handleAppendReply (c.servers i) r.callee r.args reply = .ok (d.servers i))
    (hc : Leads c i T) (hd : Leads d i T) (hm : (c.servers i).matchIndex[j]? = some m)
    (hv : (c.servers i).nextIndex[j]? = some v) (h : View c.appendCalls i j T m v) :
    (d.servers i).matchIndex[j]? = some m ∧ (d.servers i).nextIndex[j]? = some v ∨
    ∃ m' v', (d.servers i).matchIndex[j]? = some m' ∧ (d.servers i).nextIndex[j]? = some v' ∧
      View d.appendCalls i j T m' v' ∧ m ≤ m' := by
  subst hcaller
  have hmem := List.mem_of_getElem? hk
  have hcalls := view_calls hs hb _ hr hc hv h
  have hhandled := runs_handled k r hk hr
  rcases append_reply_outcome r.callee r.args reply he with hrf | ⟨-,ht,hle,hcase⟩
  · left
    have hl := hd.1
    rw [hrf] at hl ⊢
    rw [(higher_term_leader _ _ hl).1]
    exact ⟨hm,hv⟩
  have hT : r.args.term = T := ht.symm.trans hc.2
  by_cases hj : r.callee = j
  · right
    subst hj
    have ho : Of r.caller r.callee T r := ⟨rfl,rfl,hT⟩
    have hnl : r.callee < (c.servers r.caller).nextIndex.length :=
      (List.getElem?_eq_some_iff.mp hv).1
    have hml : r.callee < (c.servers r.caller).matchIndex.length :=
      (List.getElem?_eq_some_iff.mp hm).1
    obtain ⟨hack,hrej⟩ := hin r hk reply hy (hT ▸ hc)
    rcases hcase with ⟨hsucc,-,hrf⟩ | ⟨hf,-⟩
    · have hle' : m ≤ covers r := by
        refine in_order_above hs hx hc h k r hk ho (fun s hs' hos => ?_)
        exact hack hsucc s hs' (hT ▸ hos)
      refine ⟨covers r,covers r + 1,?_,?_,?_,hle'⟩
      · rw [hrf]
        simp only [List.getElem?_set_self hml, covers]
        congr 1
        omega
      · rw [hrf]
        simp only [List.getElem?_set_self hnl, covers]
        congr 1
        omega
      · have hack' : Acknowledged { r with returned := true } := ⟨rfl,by simp [hy, hsucc]⟩
        exact view_acknowledged hcalls k { r with returned := true } hhandled ho hack' hle'
    · obtain ⟨hmatch,x,hlow,hhigh,hnext⟩ :=
        rejected_next hs hb r hmem reply hy (hT ▸ hc) hle hf _ he
      refine ⟨m,x,by rw [hmatch, hm],by rw [hnext, List.getElem?_set_self hnl],?_,le_rfl⟩
      exact view_rejected hcalls _ (List.mem_of_getElem? hhandled) ho (hrej hf m hm) x hlow hhigh
  · left
    rcases hcase with ⟨-,-,hrf⟩ | ⟨-,next,hrf⟩
    · rw [hrf]
      exact ⟨by simp only [List.getElem?_set_ne hj, hm],by simp only [List.getElem?_set_ne hj, hv]⟩
    · rw [hrf]
      exact ⟨hm,by simp only [List.getElem?_set_ne hj, hv]⟩

/-- An event after which the server still leads the term keeps its view
consistent and does not lower what matches. -/
theorem view_step (hs : Sim n c a) (hb : Bounded c a) (hx : Extended c.appendCalls) (e : Event C)
    (hin : InOrder c e) (hr : Runs n c e d) (hc : Leads c i T) (hd : Leads d i T) (hne : j ≠ i)
    (hm : (c.servers i).matchIndex[j]? = some m) (hv : (c.servers i).nextIndex[j]? = some v)
    (h : View c.appendCalls i j T m v) :
    ∃ m' v', (d.servers i).matchIndex[j]? = some m' ∧ (d.servers i).nextIndex[j]? = some v' ∧
      View d.appendCalls i j T m' v' ∧ m ≤ m' := by
  have hcalls := view_calls hs hb e hr hc hv h
  rcases runs_server hs e hr i with hsrv | ⟨s,x,hsec,hran⟩
  · exact ⟨m,v,by rw [hsrv, hm],by rw [hsrv, hv],hcalls,le_rfl⟩
  rcases leads_section s x hran hd.1 with ⟨-,hcase⟩ | ⟨hcand,-⟩
  · rcases hcase with ⟨hnext,hmatch⟩ | ⟨command,rfl⟩ | ⟨server,args,reply,rfl⟩
    · exact ⟨m,v,by rw [hmatch, hm],by rw [hnext, hv],hcalls,le_rfl⟩
    · cases hran with
      | start _ _ r he =>
        obtain ⟨hnext,hmatch⟩ := start_view _ _ command r he ((hs.peer i).me.symm ▸ hne)
        exact ⟨m,v,by rw [hmatch, hm],by rw [hnext, hv],hcalls,le_rfl⟩
    · obtain ⟨k,r,rfl,hk,hy,hcaller,rfl,rfl⟩ := append_reply_origin e i server args reply hsec
      cases hran with
      | handleAppendReply _ _ _ _ he =>
        rcases view_reply hs hb hx k hin hr r hk reply hy hcaller he hc hd hm hv h with
          ⟨hm',hv'⟩ | hmoved
        · exact ⟨m,v,hm',hv',hcalls,le_rfl⟩
        · exact hmoved
  · rw [hc.1] at hcand
    cases hcand

/-- A server that has just been elected has sent nothing in its term. -/
theorem view_elected (hs : Sim n c a) (e : Event C) (hr : Runs n c e d)
    (hcand : (c.servers i).state = .candidate) (hbec : becomeLeader (c.servers i) =
      .ok (d.servers i)) (hT : (c.servers i).currentTerm = T) (hne : j ≠ i)
    (hm : (d.servers i).matchIndex[j]? = some m) (hv : (d.servers i).nextIndex[j]? = some v) :
    View d.appendCalls i j T m v := by
  have hnone : ∀ s ∈ d.appendCalls, ¬ Of i j T s := by
    intro s hs' ho
    rcases runs_calls e hr with hu | ⟨x,server,args,hsrv,-⟩
    · obtain ⟨s0,hs0,hh⟩ := updated_mem hu s hs'
      obtain ⟨ho0,-⟩ := of_header hh ho
      obtain ⟨p,hrel⟩ := hs.appends s0 hs0
      have hlead := hrel.leader
      rw [ho0.1, ho0.2.2, ← hT, (hs.peer i).term] at hlead
      exact ((hs.peer i).candidate hcand).1 hlead
    · have hl := hcand
      obtain ⟨_,_,hrf⟩ := become_leader_outcome hbec
      rw [hsrv] at hrf
      rw [hrf] at hl
      cases hl
  obtain ⟨q,w⟩ := (hs.peer i).window
  have hlast := last_log_index w
  rw [becomeLeader, bind_ok] at hbec
  obtain ⟨matched,hset,hbec⟩ := hbec
  obtain ⟨-,rfl⟩ := (store_ok _ _ _ _).mp hset
  rw [← Except.ok.inj hbec] at hm hv
  have hm1 : m = -1 := by
    rw [List.getElem?_set_ne (by rw [(hs.peer i).me]; exact hne.symm)] at hm
    obtain ⟨x,-,rfl⟩ := List.mem_map.mp (List.mem_of_getElem? hm)
    rfl
  have hv1 : v = lastLogIndex (c.servers i) + 1 := by
    obtain ⟨x,-,rfl⟩ := List.mem_map.mp (List.mem_of_getElem? hv)
    rfl
  exact ⟨by omega,Or.inl hm1,fun s hs' ho => absurd ho (hnone s hs'),
    fun r hr' s hs' ho _ => absurd ho (hnone r hr')⟩

structure Viewed (c : Cluster C) (a : Past C) : Prop where
  bounded : Bounded c a
  extended : Extended c.appendCalls
  view : ∀ (i j T : ℕ) (m v : ℤ), Leads c i T → j ≠ i →
    (c.servers i).matchIndex[j]? = some m → (c.servers i).nextIndex[j]? = some v →
    View c.appendCalls i j T m v

theorem viewed_initial (C : Type) (n : ℕ) :
    Viewed (RaftCluster.initial C n) LeaderProtocol.initial where
  bounded := bounded_initial C n
  extended := List.Pairwise.nil
  view i j T m v hl := by simp [Leads, RaftCluster.initial, make] at hl

theorem view_before (hs : Sim n c a) (hs' : Sim n d b) (m' v' : ℤ)
    (hm : (d.servers i).matchIndex[j]? = some m')
    (hv : (d.servers i).nextIndex[j]? = some v') :
    ∃ m v, (c.servers i).matchIndex[j]? = some m ∧ (c.servers i).nextIndex[j]? = some v := by
  have hmlt := (List.getElem?_eq_some_iff.mp hm).1
  have hvlt := (List.getElem?_eq_some_iff.mp hv).1
  rw [(hs'.peer i).matchLength, ← (hs.peer i).matchLength] at hmlt
  rw [(hs'.peer i).nextLength, ← (hs.peer i).nextLength] at hvlt
  exact ⟨_,_,List.getElem?_eq_getElem hmlt,List.getElem?_eq_getElem hvlt⟩

theorem viewed_carried : Carried (C := C) n InOrder Viewed := by
  intro c e d x a b hsim hview hin hruns hst hsim' heff
  refine ⟨bounded_carried c e d x a b hsim hview.bounded trivial hruns hst hsim' heff,
    extended_step hsim hview.bounded hview.extended e hruns,fun i j T m' v' hd hne hm' hv' => ?_⟩
  have still : Leads c i T → View d.appendCalls i j T m' v' := by
    intro hc
    obtain ⟨m,v,hm,hv⟩ := view_before hsim hsim' m' v' hm' hv'
    obtain ⟨m1,v1,hm1,hv1,hstep,-⟩ := view_step hsim hview.bounded hview.extended e hin hruns hc hd
      hne hm hv (hview.view i j T m v hc hne hm hv)
    obtain rfl := Option.some.inj (hm1.symm.trans hm')
    obtain rfl := Option.some.inj (hv1.symm.trans hv')
    exact hstep
  rcases runs_server hsim e hruns i with hsrv | ⟨s,msg,-,hran⟩
  · exact still (by rwa [Leads, hsrv] at hd)
  rcases leads_section s msg hran hd.1 with ⟨hstill,-⟩ | ⟨hcand,hbec⟩
  · exact still ⟨hstill.1,hstill.2.symm.trans hd.2⟩
  · obtain ⟨_,_,hrf⟩ := become_leader_outcome hbec
    have hT := hd.2
    rw [hrf] at hT
    exact view_elected hsim e hruns hcand hbec hT hne hm' hv'

/-- While a server leads, what matches has not fallen below a value of before. -/
def Above (i j T : ℕ) (m : ℤ) (c : Cluster C) (a : Past C) : Prop :=
  Viewed c a ∧ a.leader T = some i ∧
    (Leads c i T → ∀ m', (c.servers i).matchIndex[j]? = some m' → m ≤ m')

theorem above_carried (hj : j < n) (hne : j ≠ i) :
    Carried (C := C) n InOrder (Above i j T m) := by
  intro c e d x a b hsim hR hin hruns hst hsim' heff
  obtain ⟨hview,hT,habove⟩ := hR
  have hg := (steps_inv hsim.sound.inv hst).2.1
  refine ⟨viewed_carried c e d x a b hsim hview hin hruns hst hsim' heff,(hg.leader T i hT).1,
    fun hd m' hm' => ?_⟩
  have hc := leads_before hsim hT e hruns hd
  obtain ⟨v',hv',-⟩ := (represented hsim'
    (bounded_carried c e d x a b hsim hview.bounded trivial hruns hst hsim' heff) i).next hd.1 j hj
  obtain ⟨m0,v0,hm0,hv0⟩ := view_before hsim hsim' m' v' hm' hv'
  obtain ⟨m1,v1,hm1,-,-,hle⟩ := view_step hsim hview.bounded hview.extended e hin hruns hc hd hne
    hm0 hv0 (hview.view i j T m0 v0 hc hne hm0 hv0)
  obtain rfl := Option.some.inj (hm1.symm.trans hm')
  exact (habove hc m0 hm0).trans hle

/-- If the replies of every server are handled in order, then between two
moments at which a server leads one term the match index of another server
does not decrease, and the next index lies above it. -/
theorem match_index_grows (n : ℕ) (es fs : List (Event C)) (c d : Cluster C)
    (hm : Meets (step n) InOrder (RaftCluster.initial C n) (es++fs))
    (hes : exec n (RaftCluster.initial C n) es = some c) (hfs : exec n c fs = some d)
    (i j T : ℕ) (hj : j < n) (hne : j ≠ i) (hc : Leads c i T) (hd : Leads d i T) :
    ∃ m m' v', (c.servers i).matchIndex[j]? = some m ∧ (d.servers i).matchIndex[j]? = some m' ∧
      (d.servers i).nextIndex[j]? = some v' ∧ m ≤ m' ∧ m' < v' := by
  obtain ⟨hmes,hmfs⟩ := (meets_append (step n) InOrder es fs _).mp hm
  obtain ⟨a,-,hs,hview⟩ := sim_run _ _ viewed_carried es (sim_initial C n) (viewed_initial C n)
    hmes hes
  obtain ⟨m,hmatch,-⟩ := (represented hs hview.bounded i).matched hc.1 j hj
  have habove : Above i j T m c a := by
    refine ⟨hview,(leads_term hs hc).1,fun _ m' hm' => ?_⟩
    rw [Option.some.inj (hmatch.symm.trans hm')]
  obtain ⟨b,-,hs',hview',-,hle⟩ := sim_run _ _ (above_carried hj hne) fs hs habove (hmfs c hes) hfs
  obtain ⟨m',hmatch',-⟩ := (represented hs' hview'.bounded i).matched hd.1 j hj
  obtain ⟨v',hnext',-⟩ := (represented hs' hview'.bounded i).next hd.1 j hj
  exact ⟨m,m',v',hmatch,hmatch',hnext',hle hd m' hmatch',
    (hview'.view i j T m' v' hd hne hmatch' hnext').above⟩

def elect (k i j : ℕ) : List (Event ℕ) :=
  [.election i,.requestVote k j,.requestVoteReply k j,.countVote k j,.gatherVotes k,
    .concludeElection k]

/-- A leader that restarted with one entry is elected again, and the follower
without the entry rejects two requests. -/
def twoRejected : List (Event ℕ) :=
  elect 0 0 1 ++ [.start 0 (some 7),.crash 0] ++ elect 1 0 1 ++
    [.appendMissingEntries 0 2 1,.appendMissingEntries 0 2 1,.appendEntries 0,.appendEntries 1,
      .handleAppendReply 0]

def retried : List (Event ℕ) :=
  [.appendMissingEntries 0 2 1,.appendEntries 2,.handleAppendReply 2]

theorem match_index_grows_retried : ∃ c d,
    RaftCluster.exec 3 (RaftCluster.initial ℕ 3) (twoRejected ++ [.handleAppendReply 1]) = some c ∧
    RaftCluster.exec 3 c retried = some d ∧ Leads c 0 2 ∧ Leads d 0 2 ∧
    (c.servers 0).matchIndex[1]? = some (-1) ∧ (d.servers 0).matchIndex[1]? = some 0 ∧
    ∃ v, (d.servers 0).nextIndex[1]? = some v ∧ 0 < v := by
  obtain ⟨c,hc⟩ := Option.isSome_iff_exists.mp (by decide +kernel : (RaftCluster.exec 3
    (RaftCluster.initial ℕ 3) (twoRejected ++ [.handleAppendReply 1])).isSome)
  have hstate : ∀ u ∈ RaftCluster.exec 3 (RaftCluster.initial ℕ 3)
      (twoRejected ++ [.handleAppendReply 1]), Leads u 0 2 ∧
      (u.servers 0).matchIndex[1]? = some (-1) ∧ (RaftCluster.exec 3 u retried).isSome ∧
      ∀ x ∈ RaftCluster.exec 3 u retried, Leads x 0 2 ∧ (x.servers 0).matchIndex[1]? = some 0 := by
    decide +kernel
  obtain ⟨hlc,hmc,hsome,hrest⟩ := hstate c hc
  obtain ⟨d,hd⟩ := Option.isSome_iff_exists.mp hsome
  obtain ⟨hld,hmd⟩ := hrest d hd
  obtain ⟨m,m',v',-,hm',hv',-,hlt⟩ := match_index_grows 3 (twoRejected ++ [.handleAppendReply 1])
    retried c d (by decide +kernel) hc hd 0 1 2 (by decide) (by decide) hlc hld
  obtain rfl := Option.some.inj (hmd.symm.trans hm')
  exact ⟨c,d,hc,hd,hlc,hld,hmc,hmd,v',hv',hlt⟩

/-- The acknowledgement of a command overtakes that of the heartbeat before it. -/
def overtaken : List (Event ℕ) :=
  elect 0 0 1 ++ [.appendMissingEntries 0 1 1,.start 0 (some 7),.appendMissingEntries 0 1 1,
    .appendEntries 0,.appendEntries 1,.handleAppendReply 1]

theorem overtaken_replies_lower : (∃ c d,
      RaftCluster.exec 3 (RaftCluster.initial ℕ 3) overtaken = some c ∧
      RaftCluster.exec 3 c [.handleAppendReply 0] = some d ∧ Leads c 0 1 ∧ Leads d 0 1 ∧
      (c.servers 0).matchIndex[1]? = some 0 ∧ (d.servers 0).matchIndex[1]? = some (-1)) ∧
    ∃ d, RaftCluster.exec 3 (RaftCluster.initial ℕ 3)
        (twoRejected ++ retried ++ [.handleAppendReply 1]) = some d ∧ Leads d 0 2 ∧
      (d.servers 0).matchIndex[1]? = some 0 ∧ (d.servers 0).nextIndex[1]? = some 0 := by
  constructor
  · obtain ⟨c,hc⟩ := Option.isSome_iff_exists.mp
      (by decide +kernel : (RaftCluster.exec 3 (RaftCluster.initial ℕ 3) overtaken).isSome)
    have hstate : ∀ u ∈ RaftCluster.exec 3 (RaftCluster.initial ℕ 3) overtaken, Leads u 0 1 ∧
        (u.servers 0).matchIndex[1]? = some 0 ∧
        (RaftCluster.exec 3 u [.handleAppendReply 0]).isSome ∧
        ∀ x ∈ RaftCluster.exec 3 u [.handleAppendReply 0], Leads x 0 1 ∧
          (x.servers 0).matchIndex[1]? = some (-1) := by
      decide +kernel
    obtain ⟨hlc,hmc,hsome,hrest⟩ := hstate c hc
    obtain ⟨d,hd⟩ := Option.isSome_iff_exists.mp hsome
    exact ⟨c,d,hc,hd,hlc,(hrest d hd).1,hmc,(hrest d hd).2⟩
  · obtain ⟨d,hd⟩ := Option.isSome_iff_exists.mp (by decide +kernel : (RaftCluster.exec 3
      (RaftCluster.initial ℕ 3) (twoRejected ++ retried ++ [.handleAppendReply 1])).isSome)
    have hstate : ∀ u ∈ RaftCluster.exec 3 (RaftCluster.initial ℕ 3)
        (twoRejected ++ retried ++ [.handleAppendReply 1]), Leads u 0 2 ∧
        (u.servers 0).matchIndex[1]? = some 0 ∧ (u.servers 0).nextIndex[1]? = some 0 := by
      decide +kernel
    exact ⟨d,hd,hstate d hd⟩

end Mitdist.ReplyOrder
