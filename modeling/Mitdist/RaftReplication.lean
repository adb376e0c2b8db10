import Mitdist.RaftSections

/-!
# Replication follows the protocol

The two handlers that change a follower's log accept a prefix of the log of
the leader of their term. Appending stores what it acknowledges; the answer
to a request below the snapshot is the one acknowledgement that stores
nothing. The leader's bookkeeping is bounded by what was acknowledged.
-/

set_option autoImplicit false

namespace Mitdist.RaftReplication
open Mitdist.RaftPeer Mitdist.RaftHandlers Mitdist.RaftWindow Mitdist.RaftCluster
open Mitdist.StampedLog Mitdist.LeaderProtocol Mitdist.RaftRelation Mitdist.RaftSections
open Mitdist.RaftOutcomes

variable {C : Type} {n : ℕ} {a : Past C} {i : ℕ} {rf rf' : Raft C}

theorem hollowed_peer (h : Peer n a i rf) (k : ℕ) : Peer n (hollowed a i k) i rf :=
  { h with
    matched := fun hl j v hv => by
      have h1 := h.matched hl j v hv
      have h2 : claimed a j (a.term i) ≤ claimed (hollowed a i k) j (a.term i) := by
        simp only [claimed, hollowed, set2]
        split_ifs with hc
        · rw [hc.1]
          omega
        · exact le_rfl
      have h3 : (hollowed a i k).term i = a.term i := rfl
      rw [h3]
      omega }

theorem confirmed_peer (h : Peer n a i rf) (k : ℕ) : Peer n (confirmed a i k) i rf :=
  { h with
    matched := fun hl j v hv => by
      have h1 := h.matched hl j v hv
      have h2 : claimed a j (a.term i) ≤ claimed (confirmed a i k) j (a.term i) := by
        simp only [claimed, confirmed, set2]
        split_ifs with hc
        · rw [hc.1]
          omega
        · exact le_rfl
      have h3 : (confirmed a i k).term i = a.term i := rfl
      rw [h3]
      omega }

/-- A merged log is shown from the same position, which the request reaches. -/
theorem merged_window (l m : List (LogEntry C)) (b p : ℕ) (w : Window l b rf) (hbp : b ≤ p)
    (hpm : p ≤ m.length) (ht : l.take p = m.take p) :
    Window (merge l m) b { rf with log := (merge l m).drop b } := by
  rcases merge_cases l m with ⟨-,he⟩ | ⟨-,he⟩
  · rw [he]
    exact ⟨w.base,w.included,w.bound,rfl,w.includedTerm⟩
  · rw [he]
    refine ⟨w.base,w.included,by omega,rfl,?_⟩
    rw [← stamp_at_take m p b hbp, ← ht, stamp_at_take l p b hbp]
    exact w.includedTerm

theorem append_local (l m : List (LogEntry C)) (b p : ℕ) (w : Window l b rf) (hm : Indexed m)
    (hagree : ∀ k, k ≤ l.length → k ≤ m.length → stampAt l k = stampAt m k → l.take k = m.take k)
    (entries : List (LogEntry C)) (hbp : b ≤ p) (hpl : p ≤ l.length) (hpm : p ≤ m.length)
    (ht : l.take p = m.take p) (he : m.drop p = entries)
    (h : appendEntriesLocal rf entries = .ok rf') :
    rf' = { rf with log := (merge l m).drop b } ∧ merge l m = l ∨
      rf' = persist { rf with log := (merge l m).drop b } := by
  rw [appendEntriesLocal] at h
  split_ifs at h with h0
  · left
    have hpe : p = m.length := by
      rw [List.length_eq_zero_iff.mp h0] at he
      have := List.drop_eq_nil_iff.mp he
      omega
    have hml : m <+: l := by
      rw [hpe, List.take_length] at ht
      rw [← ht]
      exact List.take_prefix _ _
    rcases merge_cases l m with ⟨-,hc⟩ | ⟨hn,-⟩
    · rw [hc, ← w.log]
      exact ⟨(Except.ok.inj h).symm,rfl⟩
    · exact absurd hml hn
  · right
    rw [append_loop w m hm hagree entries p hbp hpl hpm ht he, ok_bind] at h
    exact (Except.ok.inj h).symm

theorem follow_commit (h : Peer n a i rf) (k : ℤ) : Peer n a i (followCommit rf k) := by
  unfold followCommit
  split_ifs with hk
  · obtain ⟨b,w⟩ := h.window
    have hb := w.bound
    have hc := h.committed
    exact { h with
      window := ⟨b,window_of _ b w rfl rfl rfl rfl⟩
      committed := by
        simp only [last_log_index w, w.included] at hc ⊢
        omega }
  · exact h

/-- One accepted and acknowledged prefix of the leader's log. -/
theorem accept_steps (hs : Sound n a) (m : List (LogEntry C)) (j : ℕ)
    (hl : a.leader (a.term i) = some j) (hj : j ≠ i) (k : ℕ) (hk : k ≤ (a.lead (a.term i)).length)
    (hm : m = (a.lead (a.term i)).take k) :
    Steps (majorities n) i a (confirmed (accepted a i m) i k) ∧
      Sound n (confirmed (accepted a i m) i k) := by
  have hac : Step (majorities n) i a (accepted a i m) :=
    .accept a m j hl hj (hm ▸ List.take_prefix _ _)
  have hco : Step (majorities n) i (accepted a i m) (confirmed (accepted a i m) i k) := by
    refine .confirm _ _ hk ?_
    have : (accepted a i m).log i = merge (a.log i) m := by simp [accepted]
    rw [this]
    exact hm ▸ merge_contains _ _
  exact ⟨(Relation.ReflTransGen.single hac).tail hco,inv_step (inv_step hs.inv hac) hco,hs.indexed⟩

theorem accepted_peer (h : Peer n a i rf) (m : List (LogEntry C)) (b : ℕ)
    (w : Window (merge (a.log i) m) b rf) : Peer n (accepted a i m) i rf :=
  { h with
    window := ⟨b,by simpa [accepted] using w⟩ }

/-- A request whose previous entry is in the log carries a prefix of the log
of its leader, and the two logs agree wherever their terms do. -/
theorem request_prefix (hs : Sound n a) (r : Call (AppendEntriesArgs C) AppendEntriesReply)
    (p : ℕ) (hr : AppendRel n a r p) (ht : a.term i = r.args.term) (hpl : p ≤ (a.log i).length)
    (hstamp : stampAt (a.log i) p = r.args.prevLogTerm) :
    ∃ m, m = (a.lead (a.term i)).take (p+r.args.entries.length) ∧
      m.length = p+r.args.entries.length ∧ Indexed m ∧
      (∀ k, k ≤ (a.log i).length → k ≤ m.length → stampAt (a.log i) k = stampAt m k →
        (a.log i).take k = m.take k) ∧
      (a.log i).take p = m.take p ∧ m.drop p = r.args.entries := by
  have hlen := hr.length
  have hent := hr.entries
  have hpt := hr.prevTerm
  rw [← ht] at hlen hent hpt
  generalize hm : (a.lead (a.term i)).take (p+r.args.entries.length) = m at hent
  have hmlen : m.length = p+r.args.entries.length := by
    rw [← hm, List.length_take]
    omega
  have hml : m <+: a.lead (a.term i) := hm ▸ List.take_prefix _ _
  have hagree : ∀ k, k ≤ (a.log i).length → k ≤ m.length →
      stampAt (a.log i) k = stampAt m k → (a.log i).take k = m.take k :=
    fun k => rooted_agree a _ _ (hs.inv.log_rooted i)
      (rooted_below a m _ (hs.inv.lead_rooted _) hml) k
  refine ⟨m,rfl,hmlen,hm ▸ indexed_take _ (hs.indexed _) _,hagree,?_,hent⟩
  apply hagree p hpl (by omega)
  rw [hstamp, hpt]
  exact (stamp_at_below m _ p hml (by omega)).symm

theorem append_entries_section (hs : Sound n a) (h : Peer n a i rf)
    (r : Call (AppendEntriesArgs C) AppendEntriesReply) (p : ℕ) (hr : AppendRel n a r p)
    (hi : r.callee = i) (reply : AppendEntriesReply)
    (he : appendEntries rf r.args = .ok (rf', reply)) :
    ∃ a', Steps (majorities n) i a a' ∧ Sound n a' ∧ Peer n a' i rf' ∧
      r.args.term ≤ reply.term ∧ reply.term = a'.term i ∧
      (Skips rf r.args ∧ a'.term i = r.args.term ∧ a'.hollow =
          set2 a.hollow i r.args.term (max (a.hollow i r.args.term) (p+r.args.entries.length)) ∨
        a'.hollow = a.hollow ∧ (reply.success = true → reply.term = r.args.term →
          p+r.args.entries.length ≤ a'.ack i r.args.term)) := by
  have h1 := stop_candidacy (higher_term hs h r.args.term) r.args.term
  have hs1 := raised_to_sound (i := i) hs r.args.term
  have hst := raised_to_steps (majorities n) a i r.args.term
  have hr1 := append_grows (steps_inv hs.inv hst).2.1 r p hr
  have hhol := (raised_to_same a i r.args.term).2.2.2.2.2.2.2
  have hmax := raised_to_term a i r.args.term
  obtain ⟨hincl,-,-,-,-,-⟩ := prepared_fields rf r.args.term
  have hrt := h.term
  generalize hrf1 : stopCandidacy (handleHigherTerm rf r.args.term) r.args.term = rf1 at *
  generalize ha1 : raisedTo a i r.args.term = a1 at *
  have hterm := h1.term
  obtain ⟨hrep,hcase⟩ := append_entries_outcome r.args reply rf1 hrf1.symm he
  have hrep' : reply.term = a1.term i := hrep.trans hterm
  rcases hcase with ⟨hskip,rfl,-⟩ | ⟨hskip,hsucc,hmatch,hnew,rf2,hrf2,rfl⟩ | ⟨-,hfail,rfl⟩
  · by_cases ht : a1.term i = r.args.term
    · refine ⟨hollowed a1 i (p+r.args.entries.length),
        hst.tail (.hollow a1 _),⟨inv_hollowed hs1.inv _,hs1.indexed⟩,hollowed_peer h1 _,
        by omega,hrep',Or.inl ⟨⟨by omega,hincl ▸ hskip⟩,ht,?_⟩⟩
      simp only [hollowed, ht, hhol]
    · exact ⟨a1,hst,hs1,h1,by omega,hrep',Or.inr ⟨hhol,fun _ hc => by omega⟩⟩
  · obtain ⟨b,w⟩ := h1.window
    have hbp : b ≤ p := by
      rw [w.included, hr1.prev] at hskip
      omega
    rw [hr1.prev, entry_has_term w p hbp, Except.ok.injEq, decide_eq_true_eq] at hmatch
    obtain ⟨hpl,hstamp⟩ := hmatch
    have ht : a1.term i = r.args.term := by omega
    obtain ⟨m,hm,hmlen,hmi,hagree,htake,hent⟩ := request_prefix hs1 r p hr1 ht hpl hstamp
    have hlen := hr1.length
    have hlead := hr1.leader
    rw [← ht] at hlen hlead
    have w2 := merged_window _ m b p w hbp (by omega) htake
    obtain ⟨hsteps,hs2⟩ := accept_steps hs1 m r.caller hlead (hi ▸ hr.other) _ hlen hm
    have h2 : Peer n (accepted a1 i m) i rf2 := by
      rcases append_local _ m b p w hmi hagree _ hbp hpl (by omega) htake hent hrf2 with
        ⟨rfl,hsame⟩ | rfl
      · have hlog : ({ rf1 with log := (merge (a1.log i) m).drop b } : Raft C) = rf1 := by
          rw [hsame, ← w.log]
        rw [hlog] at w2 ⊢
        exact accepted_peer h1 m b w2
      · exact core_persist { h1.toPeerCore with
          window := ⟨b,by simpa [accepted] using w2⟩ }
    refine ⟨_,hst.trans hsteps,hs2,follow_commit (confirmed_peer h2 _) _,by omega,hrep',
      Or.inr ⟨hhol,fun _ _ => ?_⟩⟩
    simp only [confirmed, accepted, ht, set2_same]
    exact le_max_right _ _
  · exact ⟨a1,hst,hs1,h1,by omega,hrep',Or.inr ⟨hhol,fun hc => by simp [hfail] at hc⟩⟩

/-- An installed snapshot trims a log that contains what it covers, and
replaces any other. -/
theorem rebase_window (l m : List (LogEntry C)) (b p : ℕ) (w : Window l b rf) (hx : Indexed l)
    (args : InstallSnapshotArgs) (hlast : args.lastIncludedIndex = (p:ℤ)-1) (hm : m.length = p)
    (hstamp : stampAt m p = args.lastIncludedTerm) (hbp : b < p)
    (hagree : p ≤ l.length → stampAt l p = stampAt m p → m <+: l) (found : Bool)
    (hfound : found = decide (p ≤ l.length ∧ stampAt l p = args.lastIncludedTerm))
    (h : rebase rf args found = .ok rf') : Window (merge l m) p rf' ∧
      ∃ log index term base, rf' = { rf with
        log := log, lastIncludedIndex := index, lastIncludedTerm := term, baseIndex := base } := by
  rcases merge_cases l m with ⟨hbelow,hmerge⟩ | ⟨hbelow,hmerge⟩
  · have hpl : p ≤ l.length := hm ▸ hbelow.length_le
    have hyes : p ≤ l.length ∧ stampAt l p = args.lastIncludedTerm :=
      ⟨hpl,by rw [← stamp_at_below m _ p hbelow (by omega), hstamp]⟩
    rw [decide_eq_true hyes] at hfound
    rw [hfound, rebase, if_pos rfl, hlast, trim_window w hx p hbp hpl] at h
    obtain rfl := Except.ok.inj h
    exact ⟨by rw [hmerge]; exact ⟨rfl,rfl,hpl,rfl,rfl⟩,_,_,_,_,rfl⟩
  · have hno : ¬ (p ≤ l.length ∧ stampAt l p = args.lastIncludedTerm) := fun hyes =>
      hbelow (hagree hyes.1 (hyes.2.trans hstamp.symm))
    rw [decide_eq_false hno] at hfound
    rw [hfound, rebase, if_neg (by simp)] at h
    obtain rfl := Except.ok.inj h
    refine ⟨?_,_,_,_,_,rfl⟩
    rw [hmerge]
    refine ⟨by simp [hlast],hlast,by omega,?_,hstamp.symm⟩
    simp [List.drop_eq_nil_of_le, hm]

/-- The peer after its log was rebased onto what an installed snapshot covers. -/
theorem installed_core (h : Peer n a i rf) (m : List (LogEntry C)) (p : ℕ) (last : ℤ)
    (hlast : last = (p:ℤ)-1) (snapshot : Bytes) (log : List (LogEntry C)) (index base : ℤ)
    (term : ℕ) (w : Window (merge (a.log i) m) p { rf with
      snapshot := snapshot, log := log, lastIncludedIndex := index, lastIncludedTerm := term
      baseIndex := base }) :
    PeerCore n (accepted a i m) i { rf with
      snapshot := snapshot, log := log, lastIncludedIndex := index, lastIncludedTerm := term
      baseIndex := base, commitIndex := max rf.commitIndex last, snapshotInstalled := true } := by
  have hlog : (accepted a i m).log i = merge (a.log i) m := by simp [accepted]
  have hindex : index = last := w.included.trans hlast.symm
  exact
    { me := h.me
      peers := h.peers
      nextLength := h.nextLength
      matchLength := h.matchLength
      term := h.term
      voted := h.voted
      window := ⟨p,by rw [hlog]; exact window_of _ p w rfl rfl rfl rfl⟩
      committed := hindex.trans_le (le_max_right _ _)
      leader := h.leader
      candidate := h.candidate
      matched := h.matched }

/-- Installing a snapshot accepts the prefix that it covers: a log that has
the snapshot's last entry is trimmed, any other is replaced by the prefix. -/
theorem install_snapshot_section (hs : Sound n a) (h : Peer n a i rf)
    (r : Call InstallSnapshotArgs InstallSnapshotReply) (p : ℕ) (hr : SnapshotRel n a r p)
    (hi : r.callee = i) (reply : InstallSnapshotReply)
    (he : installSnapshot rf r.args = .ok (rf', reply)) :
    ∃ a', Steps (majorities n) i a a' ∧ Sound n a' ∧ Peer n a' i rf' ∧ a'.hollow = a.hollow ∧
      (rf.lastIncludedIndex < rf'.lastIncludedIndex →
        a'.term i = r.args.term ∧ p ≤ a'.ack i r.args.term) := by
  have h1 := higher_term hs h r.args.term
  have hs1 := raised_to_sound (i := i) hs r.args.term
  have hst := raised_to_steps (majorities n) a i r.args.term
  have hr1 := snapshot_grows (steps_inv hs.inv hst).2.1 r p hr
  have hhol := (raised_to_same a i r.args.term).2.2.2.2.2.2.2
  have hmax := raised_to_term a i r.args.term
  have hincl : (handleHigherTerm rf r.args.term).lastIncludedIndex = rf.lastIncludedIndex := by
    unfold handleHigherTerm
    split_ifs <;> rfl
  generalize hrf1 : handleHigherTerm rf r.args.term = rf1 at *
  generalize ha1 : raisedTo a i r.args.term = a1 at *
  have hterm := h1.term
  rcases install_snapshot_outcome r.args reply rf1 hrf1.symm he with
    ⟨-,rfl⟩ | ⟨hnew,hlater,found,rf2,hfound,hrf2,rfl⟩
  · exact ⟨a1,hst,hs1,h1,hhol,fun hc => by omega⟩
  · obtain ⟨b,w⟩ := h1.window
    have ht : a1.term i = r.args.term := by omega
    have hlen := hr1.length
    have hlt := hr1.lastTerm
    have hlead := hr1.leader
    rw [← ht] at hlen hlt hlead
    have hbp : b < p := by
      rw [w.included, hr1.last] at hlater
      omega
    rw [hr1.last, entry_has_term w p (by omega), Except.ok.injEq] at hfound
    generalize hm : (a1.lead (a1.term i)).take p = m
    have hmlen : m.length = p := by
      rw [← hm, List.length_take]
      omega
    have hml : m <+: a1.lead (a1.term i) := hm ▸ List.take_prefix _ _
    have hstamp : stampAt m p = r.args.lastIncludedTerm := by
      rw [hlt]
      exact stamp_at_below m _ p hml (by omega)
    obtain ⟨hsteps,hs2⟩ := accept_steps hs1 m r.caller hlead (hi ▸ hr.other) p hlen hm.symm
    refine ⟨_,hst.trans hsteps,hs2,confirmed_peer (core_persist ?_) p,hhol,fun _ => ⟨ht,?_⟩⟩
    swap
    · simp only [confirmed, accepted, ht, set2_same]
      exact le_max_right _ _
    have hagree : p ≤ (a1.log i).length → stampAt (a1.log i) p = stampAt m p →
        m <+: a1.log i := by
      intro hpl hst
      have hsame := rooted_agree a1 _ m (hs1.inv.log_rooted i)
        (rooted_below a1 m _ (hs1.inv.lead_rooted _) hml) p hpl (by omega) hst
      rw [← hmlen, List.take_length] at hsame
      rw [← hsame]
      exact List.take_prefix _ _
    have w1 : Window (a1.log i) b { rf1 with snapshot := r.args.snapshot } :=
      window_of _ b w rfl rfl rfl rfl
    have hidx := indexed_rooted n a1 hs1 _ (hs1.inv.log_rooted i)
    obtain ⟨w2,log,index,term,base,rfl⟩ := rebase_window (a1.log i) m b p w1 hidx r.args hr1.last
      hmlen hstamp hbp hagree found hfound.symm hrf2
    exact installed_core h1 m p _ hr1.last _ log index base term w2

/-- The leader's bookkeeping follows the acknowledgements of its own term. -/
theorem append_reply_section (hs : Sound n a) (h : Peer n a i rf)
    (r : Call (AppendEntriesArgs C) AppendEntriesReply) (p : ℕ) (hr : AppendRel n a r p)
    (reply : AppendEntriesReply) (hrep : r.reply = some reply)
    (he : handleAppendReply rf r.callee r.args reply = .ok rf') :
    Peer n (raisedTo a i reply.term) i rf' := by
  rcases append_reply_outcome r.callee r.args reply he with rfl | ⟨hl,ht,hle,hcase⟩
  · exact higher_term hs h reply.term
  · have hsame : raisedTo a i reply.term = a := by
      rw [raisedTo, if_neg]
      have := h.term
      omega
    rw [hsame]
    obtain ⟨b,w⟩ := h.window
    obtain ⟨hge,-,hack⟩ := hr.replied reply hrep
    rcases hcase with ⟨hsucc,-,rfl⟩ | ⟨-,next,rfl⟩
    · exact { h with
        nextLength := by simpa using h.nextLength
        matchLength := by simpa using h.matchLength
        window := ⟨b,window_of _ b w rfl rfl rfl rfl⟩
        matched := fun _ j v hv => by
          simp only [List.getElem?_set] at hv
          split_ifs at hv with hj
          · rw [Option.some.injEq] at hv
            have hk := hack hsucc (by omega)
            rw [← ht, h.term, hj] at hk
            rw [← hv, hr.prev]
            omega
          · exact h.matched hl j v hv }
    · exact { h with
        nextLength := by simpa using h.nextLength
        window := ⟨b,window_of _ b w rfl rfl rfl rfl⟩ }

theorem snapshot_section (hs : Sound n a) (h : Peer n a i rf) (index : ℤ) (bytes : Bytes)
    (he : snapshot rf index bytes = .ok rf') : Peer n a i rf' := by
  obtain ⟨b,w⟩ := h.window
  rcases snapshot_outcome index bytes he with rfl | ⟨hlow,hhigh,rf2,ht,rfl⟩
  · exact h
  · have hread : ∃ e, logEntry rf (index-1) = .ok e := by
      rw [trim, bind_ok] at ht
      exact ⟨ht.choose,ht.choose_spec.1⟩
    obtain ⟨e,he⟩ := hread
    obtain ⟨p,hx,-,hp,-⟩ := log_entry_term w _ e he
    rw [hx] at ht hhigh hlow
    have hbp : b < p := by
      rw [w.included] at hlow
      omega
    rw [trim_window w (indexed_rooted n a hs _ (hs.inv.log_rooted i)) p hbp hp] at ht
    obtain rfl := Except.ok.inj ht
    exact core_persist { h.toPeerCore with
      window := ⟨p,rfl,rfl,hp,rfl,rfl⟩
      committed := hhigh }

theorem advance_commit_section (h : Peer n a i rf) (he : advanceCommitIndex rf = .ok rf') :
    Peer n a i rf' := by
  rcases advance_commit_outcome he with rfl | ⟨-,hup,-,rfl⟩
  · exact h
  · obtain ⟨b,w⟩ := h.window
    exact { h with
      window := ⟨b,window_of _ b w rfl rfl rfl rfl⟩
      committed := h.committed.trans (le_of_lt hup) }

theorem apply_section (h : Peer n a i rf) (msg : ApplyMsg C) (he : apply rf = .ok (rf', msg)) :
    Peer n a i rf' := by
  obtain ⟨b,w⟩ := h.window
  rcases apply_outcome msg he with ⟨-,rfl,-⟩ | ⟨-,rfl,-⟩ <;>
    exact { h with window := ⟨b,window_of _ b w rfl rfl rfl rfl⟩ }

/-- A restart restores what the section before it persisted. -/
theorem crash_section (h : Peer n a i rf) : Peer n a i (make n i rf.persister) := by
  obtain ⟨b,w⟩ := h.window
  have hp := h.persisted
  exact
    { me := rfl
      peers := rfl
      nextLength := by simp [make]
      matchLength := by simp [make]
      term := by simpa [make, hp, saved] using h.term
      voted := by simpa [make, hp, saved] using h.voted
      window := by
        refine ⟨b,?_,?_,w.bound,?_,?_⟩
        · have := w.included
          simp only [make, hp, saved]
          omega
        · simpa [make, hp, saved] using w.included
        · simpa [make, hp, saved] using w.log
        · simpa [make, hp, saved] using w.includedTerm
      committed := le_rfl
      leader := fun hl => by cases hl
      candidate := fun hc => by cases hc
      matched := fun hl => by cases hl
      persisted := by simp [make, hp, saved] }

/-- What a leader sends is a prefix of its own log. -/
theorem append_missing_section (hs : Sound n a) (h : Peer n a i rf) (term server epoch : ℕ)
    (hserver : server < n) (hne : server ≠ i) (request : Request C)
    (he : appendMissingEntries rf term server = .ok (some request)) :
    match request with
    | .appendEntries args =>
        ∃ p, AppendRel n a { caller := i, epoch := epoch, callee := server, args := args } p
    | .installSnapshot args =>
        ∃ p, SnapshotRel n a { caller := i, epoch := epoch, callee := server, args := args } p := by
  obtain ⟨b,w⟩ := h.window
  rcases append_missing_outcome term server _ he with hnone | ⟨hl,ht,hcase⟩
  · simp at hnone
  have hlead := h.leader hl
  have hlog := hs.inv.log_lead i hlead
  rw [h.term] at ht
  subst ht
  rcases hcase with ⟨nextIdx,-,hreq⟩ | ⟨nextIdx,prev,missing,hprev,hmiss,hreq⟩
  · obtain rfl := Option.some.inj hreq
    refine ⟨b,hserver,hne.symm,?_,w.included,?_,?_⟩
    · simpa [h.term] using hlead
    · simpa [h.term, ← hlog] using w.bound
    · simpa [h.term, ← hlog] using w.includedTerm
  · obtain rfl := Option.some.inj hreq
    obtain ⟨p,hp,hbp,hpl,hpt⟩ := log_entry_term w _ prev hprev
    have hmissing : missing = (a.log i).drop p := by
      have hnext : nextIdx = p := by omega
      rw [hnext, last_log_index w, logEntries, sliceFrom, w.base] at hmiss
      rcases hmiss with ⟨hge,hm⟩ | ⟨hge,rfl⟩
      · split_ifs at hm
        rw [w.log, List.drop_drop] at hm
        have := (Except.ok.inj hm).symm
        rw [this]
        congr 1
        omega
      · exact (List.drop_eq_nil_of_le (by omega)).symm
    subst hmissing
    have hlen : p+((a.log i).drop p).length = (a.log i).length := by
      rw [List.length_drop]
      omega
    refine ⟨p,hserver,hne.symm,hlead,hp,?_,?_,?_,fun y hy => by cases hy⟩
    · exact le_of_eq (by rw [hlen, hlog])
    · simp only [hlen]
      rw [hlog, List.take_length]
    · rw [← hlog]
      exact hpt

end Mitdist.RaftReplication
