import Mitdist.LogRepair
import Mitdist.SnapshotRounds

/-!
# Entries after a snapshot

The reply to a snapshot does not move the leader's next index for the
follower, but a late reply to a request for entries can. If one has moved it
to what the leader retains, and the snapshot of the follower ends in the
leader's log, rounds bring the follower the rest: no rejection points back
behind the follower's snapshot.
-/

set_option autoImplicit false

namespace Mitdist.SnapshotFeed
open Mitdist.RaftPeer Mitdist.RaftHandlers Mitdist.RaftWindow Mitdist.RaftCluster
open Mitdist.RaftOutcomes Mitdist.RaftInstance Mitdist.RaftEvents Mitdist.StampedLog
open Mitdist.StampedSearch Mitdist.LeaderProtocol Mitdist.RaftRelation Mitdist.RaftSections
open Mitdist.RaftHints Mitdist.RaftIndices Mitdist.RaftSimulation Mitdist.RaftServers
open Mitdist.LogRepresentation Mitdist.LogRepair Mitdist.SnapshotRounds Mitdist.TransitionSystem
open Mitdist.LeaderAppendOnly (Leads)

variable {C : Type} {n L F T b q x : ℕ} {l f : List (LogEntry C)} {c d : Cluster C} {a : Past C}

/-- A number of complete rounds of requests for entries. -/
def rounds (n L F : ℕ) : ℕ → Cluster C → Option (Cluster C)
  | 0, c => some c
  | k+1, c => do
    let (c', _) ← round n L F c
    rounds n L F k c'

/-- The follower's snapshot ends in the leader's log. If it ends beyond the
leader's own snapshot, the follower retains no entry of the snapshot's term. -/
def Fits (leader follower : Raft C) : Prop :=
  follower.lastIncludedIndex ≤ lastLogIndex leader ∧
    (logEntry leader follower.lastIncludedIndex).toOption.map LogEntry.term =
      some follower.lastIncludedTerm ∧
    (follower.lastIncludedIndex = leader.lastIncludedIndex ∨
      ∀ e ∈ follower.log, e.term ≠ follower.lastIncludedTerm)

instance decidableFits (leader follower : Raft C) : Decidable (Fits leader follower) :=
  inferInstanceAs (Decidable (_ ∧ _ ∧ (_ ∨ _)))

/-- What the two logs have to do with each other for rounds to succeed. -/
structure Joined (l f : List (LogEntry C)) (b q : ℕ) : Prop where
  indexed : Indexed l
  agree : ∀ k, k ≤ f.length → k ≤ l.length → stampAt f k = stampAt l k → f.take k = l.take k
  ascending : Ascending f
  base : b ≤ q
  follower : q ≤ f.length
  leader : q ≤ l.length
  stamp : stampAt f q = stampAt l q
  clear : q = b ∨ ∀ k, q < k → k ≤ f.length → stampAt f k ≠ stampAt f q

/-- A rejection does not point behind the follower's snapshot. -/
theorem retry_above (h : Joined l f b q) (hq : q < x) :
    (q:ℤ) ≤ retry l b x (hint f q x) := by
  have hlen := h.follower
  rw [hint]
  by_cases hx : x ≤ f.length
  · have hrun := run_start_above f q x hq
    have hrise := h.ascending q x hq.le hx
    have habove := last_at_most_above l b (stampAt f x) x q hq.le (by rw [← h.stamp]; exact hrise)
    rw [if_pos hx, retry]
    simp only
    rw [if_neg (by omega)]
    split_ifs with hfound
    · have hbeyond : q < lastAtMost l b (stampAt f x) x := by
        rcases h.clear with rfl | hclear
        · exact hfound.1
        · refine lt_of_le_of_ne habove (fun he => hclear x hq hx ?_)
          rw [h.stamp, ← hfound.2, ← he]
      omega
    · omega
  · rw [if_neg hx, retry, if_pos (by simp only; omega)]
    simp only
    omega

/-- From a position that the follower retains, every round is accepted or
moves the next index down to another such position. -/
theorem rounds_retained (h : Joined l f b q) (hL : L < n) (hF : F < n) (hne : F ≠ L) (x : ℕ)
    (c : Cluster C) (hc : Facing L F T l f b q x c) (hq : q ≤ x) (hx : x ≤ l.length) :
    ∃ k c', rounds n L F k c = some c' ∧ Facing L F T l (merge f l) b q l.length c' ∧
      (c'.servers L).matchIndex[F]? = some ((l.length:ℤ)-1) := by
  induction x using Nat.strong_induction_on generalizing c with
  | h x ih =>
    have hb := h.base
    by_cases hm : Matches l f x
    · obtain ⟨c',hround,hmatch,hc'⟩ := facing_accepted hc hL hF hne (by omega) hq hx hm h.indexed
        h.agree
      exact ⟨1,c',by rw [rounds, hround]; rfl,hc',hmatch⟩
    · have hlt : q < x := by
        refine lt_of_le_of_ne hq (fun he => hm ?_)
        subst he
        exact ⟨h.follower,h.stamp⟩
      have hlow := retry_above h hlt
      obtain ⟨hlen,hindex⟩ := hint_bounds f q x (by omega)
      have hhigh := (retry_bounds l b x (hint f q x) hlen hindex).2
      obtain ⟨y,hy⟩ : ∃ y : ℕ, retry l b x (hint f q x) = y :=
        ⟨(retry l b x (hint f q x)).toNat,by omega⟩
      obtain ⟨c1,hround,hc1⟩ := facing_rejected hc hL hF hne (by omega) hq hx hm y hy
      obtain ⟨k,c',hk,hrest⟩ := ih y (by omega) c1 hc1 (by omega) (by omega)
      exact ⟨k+1,c',by rw [rounds, hround]; exact hk,hrest⟩

/-- A request below the follower's snapshot is acknowledged without being
stored, and the leader goes on from the end of its log. -/
theorem round_skipped (hc : Facing L F T l f b q x c) (hL : L < n) (hF : F < n) (hne : F ≠ L)
    (hb : b ≤ x) (hq : x < q) (hx : x ≤ l.length) :
    ∃ c', round n L F c = some (c', true) ∧ Facing L F T l f b q l.length c' := by
  have hnext := (List.getElem?_eq_some_iff.mp hc.next).1
  have w := prepared_window f q (c.servers F) hc.follower (c.servers L).currentTerm
  have hterm := prepared_term hc
  generalize hrf1 : stopCandidacy (handleHigherTerm (c.servers F) (c.servers L).currentTerm)
    (c.servers L).currentTerm = rf1 at w hterm
  have h2 : appendEntries (c.servers F) (request (c.servers L) l x) =
      .ok (rf1, { term := rf1.currentTerm, success := true, skipForwardTo := rf1.baseIndex }) := by
    have hskip : (request (c.servers L) l x).prevLogIndex < rf1.lastIncludedIndex := by
      rw [w.included]
      show (x:ℤ)-1 < (q:ℤ)-1
      omega
    rw [← hrf1] at hskip ⊢
    exact if_pos hskip
  have h3 := append_reply_accepted (c.servers L) F (request (c.servers L) l x)
    { term := rf1.currentTerm, success := true, skipForwardTo := rf1.baseIndex } hc.leads rfl
    hterm.le rfl hnext hc.matched
  rw [request_end (c.servers L) hx] at h3
  refine ⟨_,round_sections _ _ _ _ hL hF hne (request_sent hc hb hx) h2 h3,?_⟩
  refine facing_after hne _ _ _ _ hc.leads hc.term (hterm.trans hc.term).le
    (window_of l b hc.leader rfl rfl rfl rfl) w (List.getElem?_set_self hnext) ?_
  show F < ((c.servers L).matchIndex.set F _).length
  rw [List.length_set]
  exact hc.matched

theorem rounds_converge (h : Joined l f b q) (hL : L < n) (hF : F < n) (hne : F ≠ L)
    (hc : Facing L F T l f b q x c) (hb : b ≤ x) (hx : x ≤ l.length) :
    ∃ k c', rounds n L F k c = some c' ∧ Facing L F T l (merge f l) b q l.length c' ∧
      (c'.servers L).matchIndex[F]? = some ((l.length:ℤ)-1) := by
  rcases le_or_gt q x with hq | hq
  · exact rounds_retained h hL hF hne x c hc hq hx
  · obtain ⟨c1,hround,hc1⟩ := round_skipped hc hL hF hne hb hq hx
    obtain ⟨k,c',hk,hrest⟩ := rounds_retained h hL hF hne l.length c1 hc1 h.leader le_rfl
    exact ⟨k+1,c',by rw [rounds, hround]; exact hk,hrest⟩

def Installed (c : Cluster C) (_ : Past C) : Prop :=
  ∀ r ∈ c.snapshotCalls, ∀ y, r.reply = some y → y.term = r.args.term →
    r.args.lastIncludedIndex ≤ (c.servers r.callee).lastIncludedIndex

theorem installed_initial (C : Type) (n : ℕ) :
    Installed (RaftCluster.initial C n) LeaderProtocol.initial :=
  fun r hr => by simp [RaftCluster.initial] at hr

theorem installed_carried : Carried (C := C) n (fun _ _ => True) Installed := by
  intro c e d i a a' hsim hin _ hruns hst hsim' heff
  have hold : ∀ r ∈ c.snapshotCalls, ∀ y, r.reply = some y → y.term = r.args.term →
      r.args.lastIncludedIndex ≤ (d.servers r.callee).lastIncludedIndex :=
    fun r hr y hy ht => (hin r hr y hy ht).trans (included_monotone hsim e hruns r.callee)
  intro r hr y hy ht
  cases hruns with
  | appendMissingEntries j term server request hj hs hne he =>
    rcases request with - | args | args
    · exact hold r hr y hy ht
    · exact hold r hr y hy ht
    · rcases List.mem_append.mp hr with hr | hr
      · exact hold r hr y hy ht
      · rw [List.mem_singleton.mp hr] at hy
        simp at hy
  | installSnapshot k r0 rf reply hk he =>
    rcases List.mem_or_eq_of_mem_set hr with hr | rfl
    · exact hold r hr y hy ht
    · obtain rfl := Option.some.inj hy
      have hincl := answered_includes (peer_ordered hsim r0.callee) r0.args reply he ht
      show r0.args.lastIncludedIndex ≤
        (Function.update c.servers r0.callee rf r0.callee).lastIncludedIndex
      rw [Function.update_self]
      exact hincl
  | installSnapshotReply k r0 reply hk hy0 =>
    rcases List.mem_or_eq_of_mem_set hr with hr | rfl
    · exact hold r hr y hy ht
    · exact hold r0 (List.mem_of_getElem? hk) y hy ht
  | _ => exact hold r hr y hy ht

/-- A snapshot in flight keeps its place, its receiver and its contents. -/
def Sent (c : Cluster C) (k F : ℕ) (args : InstallSnapshotArgs) : Prop :=
  ∃ r, c.snapshotCalls[k]? = some r ∧ r.callee = F ∧ r.args = args

theorem sent_set (c : Cluster C) (k F : ℕ) (args : InstallSnapshotArgs) (h : Sent c k F args)
    (x : ℕ) (r r' : Call InstallSnapshotArgs InstallSnapshotReply)
    (hx : c.snapshotCalls[x]? = some r) (hcallee : r'.callee = r.callee)
    (hargs : r'.args = r.args) :
    ∃ s, (c.snapshotCalls.set x r')[k]? = some s ∧ s.callee = F ∧ s.args = args := by
  obtain ⟨s,hs,hF,ha⟩ := h
  rw [List.getElem?_set]
  by_cases hk : x = k
  · subst hk
    obtain rfl := Option.some.inj (hx.symm.trans hs)
    have hlt := (List.getElem?_eq_some_iff.mp hs).1
    exact ⟨r',by simp [hlt],hcallee.trans hF,hargs.trans ha⟩
  · exact ⟨s,by rw [if_neg hk, hs],hF,ha⟩

theorem sent_step (c d : Cluster C) (k F : ℕ) (args : InstallSnapshotArgs) (e : Event C)
    (h : Sent c k F args) (hr : Runs n c e d) : Sent d k F args := by
  cases hr with
  | appendMissingEntries j term server request hj hs hne he =>
    rcases request with - | req | req
    · exact h
    · exact h
    · obtain ⟨r,hk,hrest⟩ := h
      have hlt := (List.getElem?_eq_some_iff.mp hk).1
      exact ⟨r,by rw [← hk]; exact List.getElem?_append_left hlt,hrest⟩
  | installSnapshot x r rf reply hx he => exact sent_set c k F args h x r _ hx rfl rfl
  | installSnapshotReply x r reply hx hy => exact sent_set c k F args h x r _ hx rfl rfl
  | _ => exact h

/-- The leader sends its snapshot to the follower, and the call is recorded. -/
theorem sent_first (args : InstallSnapshotArgs)
    (hsend : appendMissingEntries (c.servers L) T F = .ok (some (.installSnapshot args)))
    (h : step n c (.appendMissingEntries L T F) = some d) :
    Sent d c.snapshotCalls.length F args := by
  have hr := step_runs n c d _ h
  cases hr with
  | appendMissingEntries _ _ _ request hj hs hne he =>
    obtain rfl := Except.ok.inj (he.symm.trans hsend)
    exact ⟨_,List.getElem?_concat_length ..,rfl,rfl⟩

/-- The follower has answered the snapshot in the leader's term: it has
discarded at least what the snapshot covers. -/
theorem answered_behind (es fs : List (Event C)) (args : InstallSnapshotArgs)
    (hes : exec n (RaftCluster.initial C n) es = some c)
    (hsend : appendMissingEntries (c.servers L) T F = .ok (some (.installSnapshot args)))
    (hfs : exec n c (.appendMissingEntries L T F :: fs) = some d)
    (r : Call InstallSnapshotArgs InstallSnapshotReply)
    (hr : d.snapshotCalls[c.snapshotCalls.length]? = some r) (hreply : r.reply = some ⟨T⟩) :
    exec n (RaftCluster.initial C n) (es ++ .appendMissingEntries L T F :: fs) = some d ∧
      args.lastIncludedIndex ≤ (d.servers F).lastIncludedIndex := by
  have hall : exec n (RaftCluster.initial C n) (es ++ .appendMissingEntries L T F :: fs) =
      some d := by
    rw [RaftCluster.exec, exec_append]
    exact Option.bind_eq_some_iff.mpr ⟨c,hes,hfs⟩
  refine ⟨hall,?_⟩
  obtain ⟨_,-,-,hinst⟩ := sim_run _ _ installed_carried _ (sim_initial C n)
    (installed_initial C n) (meets_true _ _ _) hall
  obtain ⟨u,hu,hrest⟩ := exec_cons_some (step n) c d _ fs hfs
  obtain ⟨r',hr',hcallee,hargs⟩ := exec_always (step n)
    (fun v => Sent v c.snapshotCalls.length F args)
    (fun v e v' hv hstep => sent_step v v' _ F args e hv (step_runs n v v' e hstep)) fs u d
    (sent_first args hsend hu) hrest
  obtain rfl := Option.some.inj (hr'.symm.trans hr)
  have hincl := hinst r' (List.mem_of_getElem? hr') ⟨T⟩ hreply
    (by rw [hargs, sent_term args hsend])
  rwa [hcallee, hargs] at hincl

theorem fits_joined (hs : Sim n d a) (wl : Window (a.log L) b (d.servers L))
    (wf : Window (a.log F) q (d.servers F)) (hbq : b ≤ q)
    (hfits : Fits (d.servers L) (d.servers F)) : Joined (a.log L) (a.log F) b q := by
  obtain ⟨hwithin,hterm,hclear⟩ := hfits
  have hrl := hs.sound.inv.log_rooted L
  have hrf := hs.sound.inv.log_rooted F
  rw [wf.included, last_log_index wl] at hwithin
  have hql : q ≤ (a.log L).length := by omega
  obtain ⟨e,he,hes⟩ := log_entry_ok wl q hbq hql
  rw [wf.included, he, wf.includedTerm] at hterm
  refine ⟨indexed_rooted n a hs.sound _ hrl,rooted_agree a _ _ hrf hrl,
    rooted_ascending hs.sound _ hrf,hbq,wf.bound,hql,?_,?_⟩
  · have : e.term = stampAt (a.log F) q := Option.some.inj hterm
    rw [← hes, this]
  · rcases hclear with hsame | hnone
    · left
      rw [wf.included, wl.included] at hsame
      omega
    · right
      intro k hk hlen
      obtain ⟨j,rfl⟩ : ∃ j, k = j+1 := ⟨k-1,by omega⟩
      obtain ⟨y,hy,hys⟩ := getElem_stamp_at (a.log F) j hlen
      have hmem : y ∈ (d.servers F).log := by
        rw [wf.log]
        refine List.mem_iff_getElem?.mpr ⟨j-q,?_⟩
        rw [List.getElem?_drop, Nat.add_sub_cancel' (by omega), hy]
      rw [← hys, ← wf.includedTerm]
      exact hnone y hmem

/-- A leader has sent its snapshot to a follower, which has answered in the
leader's term. The leader still leads and has taken no new snapshot. If its
next index for the follower points to what it retains, and the snapshot of the
follower fits, rounds bring the follower's log into agreement with the
leader's in the same term. -/
theorem fed_after_late_reply (n : ℕ) (es fs : List (Event C)) (c d : Cluster C) (L F T : ℕ)
    (hL : L < n) (hF : F < n) (hne : F ≠ L) (args : InstallSnapshotArgs)
    (hes : exec n (RaftCluster.initial C n) es = some c)
    (hsend : appendMissingEntries (c.servers L) T F = .ok (some (.installSnapshot args)))
    (hfs : exec n c (.appendMissingEntries L T F :: fs) = some d)
    (r : Call InstallSnapshotArgs InstallSnapshotReply)
    (hr : d.snapshotCalls[c.snapshotCalls.length]? = some r) (hreply : r.reply = some ⟨T⟩)
    (hd : Leads d L T)
    (hkeep : (d.servers L).lastIncludedIndex = args.lastIncludedIndex)
    (hbehind : (d.servers F).currentTerm ≤ T)
    (hnext : ∀ v ∈ (d.servers L).nextIndex[F]?, (d.servers L).lastIncludedIndex ≤ v-1)
    (hfits : Fits (d.servers L) (d.servers F)) :
    ∃ k d', rounds n L F k d = some d' ∧ Leads d' L T ∧
      lastLogIndex (d'.servers L) = lastLogIndex (d.servers L) ∧
      (∀ i : ℤ, (d'.servers F).lastIncludedIndex < i → i ≤ lastLogIndex (d.servers L) →
        ∃ e, logEntry (d.servers L) i = .ok e ∧ logEntry (d'.servers L) i = .ok e ∧
          logEntry (d'.servers F) i = .ok e) ∧
      (d'.servers F).lastIncludedIndex = (d.servers F).lastIncludedIndex ∧
      lastLogIndex (d.servers L) ≤ lastLogIndex (d'.servers F) ∧
      (d'.servers L).matchIndex[F]? = some (lastLogIndex (d.servers L)) ∧
      (d'.servers L).nextIndex[F]? = some (lastLogIndex (d.servers L) + 1) := by
  obtain ⟨hall,hincl⟩ := answered_behind es fs args hes hsend hfs r hr hreply
  obtain ⟨a,hs,hb⟩ := reachable_bounded _ hall
  obtain ⟨b,wl⟩ := (hs.peer L).window
  obtain ⟨q,wf⟩ := (hs.peer F).window
  have hlast := last_log_index wl
  have hbq : b ≤ q := by
    rw [← hkeep, wl.included, wf.included] at hincl
    omega
  have hjoin := fits_joined hs wl wf hbq hfits
  have hrep := represented hs hb L
  obtain ⟨v,hv,hv0,hvl⟩ := hrep.next hd.1 F hF
  obtain ⟨x,rfl⟩ := Int.eq_ofNat_of_zero_le hv0
  obtain ⟨m,hm,-⟩ := hrep.matched hd.1 F hF
  have hface : Facing L F T (a.log L) (a.log F) b q x d :=
    ⟨hd.1,hd.2,hbehind,wl,wf,hv,(List.getElem?_eq_some_iff.mp hm).1⟩
  have hbx : b ≤ x := by
    have := hnext _ hv
    rw [wl.included] at this
    omega
  have hx : x ≤ (a.log L).length := by omega
  obtain ⟨k,d',hk,hface',hmatch⟩ := rounds_converge hjoin hL hF hne hface hbx hx
  have hlast' := last_log_index hface'.leader
  have hlastF := last_log_index hface'.follower
  have hinclF := hface'.follower.included
  refine ⟨k,d',hk,⟨hface'.leads,hface'.term⟩,by omega,fun i hi hil => ?_,?_,?_,?_,?_⟩
  · rw [hinclF] at hi
    obtain ⟨j,rfl⟩ := Int.eq_ofNat_of_zero_le (by omega : 0 ≤ i)
    have hj : j < (a.log L).length := by omega
    obtain ⟨hentry,hentryF⟩ := facing_agrees hface' j (by omega) (by omega) hj
    exact ⟨_,log_entry_get wl j _ (by omega) (List.getElem?_eq_getElem hj),hentry,hentryF⟩
  · rw [hinclF, wf.included]
  · have hlen := (merge_contains (a.log F) (a.log L)).length_le
    omega
  · rw [hmatch, hlast]
  · rw [hface'.next, hlast]
    congr 1
    omega

/-- The snapshot is handled, and then the reply to a request from before. -/
def lateReply : List (Event ℕ) :=
  [.appendEntries 0,.installSnapshot 0,.installSnapshotReply 0,.handleAppendReply 0]

theorem fed_after_late_reply_entry : ∃ c d k d',
    RaftCluster.exec 3 (RaftCluster.initial ℕ 3)
      (firstLeader ++ [.appendMissingEntries 0 1 1] ++ discards 1) = some c ∧
    RaftCluster.exec 3 c (.appendMissingEntries 0 1 1 :: lateReply) = some d ∧
    lastLogIndex (d.servers 1) = 0 ∧ rounds 3 0 1 k d = some d' ∧ Leads d' 0 1 ∧
    logEntry (d'.servers 1) 1 = .ok ⟨1,1,some 8⟩ ∧ (d'.servers 0).matchIndex[1]? = some 1 := by
  obtain ⟨c,hc⟩ := Option.isSome_iff_exists.mp (by decide +kernel : (RaftCluster.exec 3
    (RaftCluster.initial ℕ 3) (firstLeader ++ [.appendMissingEntries 0 1 1] ++ discards 1)).isSome)
  have hsent : ∀ u ∈ RaftCluster.exec 3 (RaftCluster.initial ℕ 3)
      (firstLeader ++ [.appendMissingEntries 0 1 1] ++ discards 1),
      (appendMissingEntries (u.servers 0) 1 1).toOption =
        some (some (.installSnapshot sentSnapshot)) ∧ u.snapshotCalls.length = 0 ∧
      (RaftCluster.exec 3 u (.appendMissingEntries 0 1 1 :: lateReply)).isSome ∧
      ∀ v ∈ RaftCluster.exec 3 u (.appendMissingEntries 0 1 1 :: lateReply),
        (∃ r ∈ v.snapshotCalls[0]?, r.reply = some ⟨1⟩) ∧ Leads v 0 1 ∧
        (v.servers 0).lastIncludedIndex = 0 ∧ (v.servers 1).currentTerm ≤ 1 ∧
        (∀ x ∈ (v.servers 0).nextIndex[1]?, (v.servers 0).lastIncludedIndex ≤ x-1) ∧
        Fits (v.servers 0) (v.servers 1) ∧ lastLogIndex (v.servers 1) = 0 ∧
        (v.servers 1).lastIncludedIndex = 0 ∧ lastLogIndex (v.servers 0) = 1 ∧
        (logEntry (v.servers 0) 1).toOption = some ⟨1,1,some 8⟩ := by
    decide +kernel
  obtain ⟨hreq,hlen,hsome,hrest⟩ := hsent c hc
  obtain ⟨d,hd⟩ := Option.isSome_iff_exists.mp hsome
  obtain ⟨⟨r,hr,hreply⟩,hlead,hkeep,hbehind,hnext,hfits,hlastF,hinclF,hlastL,hentry⟩ := hrest d hd
  rw [to_option_some] at hreq hentry
  obtain ⟨k,d',hk,hlead',-,hagree,hincl',-,hmatch,-⟩ := fed_after_late_reply 3 _ lateReply c d 0 1 1
    (by decide) (by decide) (by decide) sentSnapshot hc hreq hd r (by rw [hlen]; exact hr) hreply
    hlead hkeep hbehind hnext hfits
  obtain ⟨e,he,-,heF⟩ := hagree 1 (by rw [hincl', hinclF]; decide) (by rw [hlastL])
  obtain rfl := Except.ok.inj (he.symm.trans hentry)
  exact ⟨c,d,k,d',hc,hd,hlastF,hk,hlead',heF,by rw [hmatch, hlastL]⟩

end Mitdist.SnapshotFeed
