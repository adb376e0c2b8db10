import Mitdist.RaftRelation
import Mitdist.RaftOutcomes

/-!
# The sections of a peer follow the protocol

For each lock-protected section that changes the term, the vote, the role or
the log, the steps of the abstract protocol that it takes, and that the peer
is still related to the history afterwards. Nothing here depends on which
entries are committed.
-/

set_option autoImplicit false

namespace Mitdist.RaftSections
open Mitdist.RaftPeer Mitdist.RaftHandlers Mitdist.RaftWindow Mitdist.RaftCluster
open Mitdist.StampedLog Mitdist.LeaderProtocol Mitdist.RaftRelation Mitdist.RaftOutcomes

variable {C : Type} {n : ℕ} {a : Past C} {i : ℕ} {rf rf' : Raft C}

theorem window_of (l : List (LogEntry C)) (b : ℕ) (w : Window l b rf)
    (h1 : rf'.baseIndex = rf.baseIndex) (h2 : rf'.lastIncludedIndex = rf.lastIncludedIndex)
    (h3 : rf'.log = rf.log) (h4 : rf'.lastIncludedTerm = rf.lastIncludedTerm) : Window l b rf' :=
  ⟨h1.trans w.base,h2.trans w.included,w.bound,h3.trans w.log,h4.trans w.includedTerm⟩

theorem core_persist (h : PeerCore n a i rf) : Peer n a i (persist rf) := by
  obtain ⟨b,w⟩ := h.window
  exact { h with
    window := ⟨b,window_of _ b w rfl rfl rfl rfl⟩
    persisted := rfl }

def raisedTo (a : Past C) (i t : ℕ) : Past C := if a.term i < t then raised a i t else a

theorem raised_to_term (a : Past C) (i t : ℕ) : (raisedTo a i t).term i = max (a.term i) t := by
  unfold raisedTo
  split_ifs with h
  · simp [raised]
    omega
  · omega

theorem raised_to_same (a : Past C) (i t : ℕ) : (raisedTo a i t).log = a.log ∧
    (raisedTo a i t).vote = a.vote ∧ (raisedTo a i t).cand = a.cand ∧
    (raisedTo a i t).leader = a.leader ∧ (raisedTo a i t).base = a.base ∧
    (raisedTo a i t).lead = a.lead ∧ (raisedTo a i t).ack = a.ack ∧
    (raisedTo a i t).hollow = a.hollow := by
  unfold raisedTo
  split_ifs <;> exact ⟨rfl,rfl,rfl,rfl,rfl,rfl,rfl,rfl⟩

theorem raised_to_steps (Q : Quorums ℕ) (a : Past C) (i t : ℕ) : Steps Q i a (raisedTo a i t) := by
  unfold raisedTo
  split_ifs with h
  · exact .single (.raise a t h)
  · exact .refl

theorem raised_to_sound (hs : Sound n a) (t : ℕ) : Sound n (raisedTo a i t) where
  inv := (steps_inv hs.inv (raised_to_steps _ a i t)).1
  indexed u := by
    rw [(raised_to_same a i t).2.2.2.2.2.1]
    exact hs.indexed u

/-- A higher term discards the vote and the role together with the old term. -/
theorem higher_term (hs : Sound n a) (h : Peer n a i rf) (t : ℕ) :
    Peer n (raisedTo a i t) i (handleHigherTerm rf t) := by
  unfold handleHigherTerm raisedTo
  rw [h.term]
  split_ifs with ht
  · apply core_persist
    obtain ⟨b,w⟩ := h.window
    have hterm : (raised a i t).term i = t := by simp [raised]
    exact
      { me := h.me
        peers := h.peers
        nextLength := h.nextLength
        matchLength := h.matchLength
        term := hterm.symm
        voted := by
          rw [hterm]
          exact (vote_fresh hs.inv i t ht).symm
        window := ⟨b,window_of _ b w rfl rfl rfl rfl⟩
        committed := h.committed
        leader := fun hl => by cases hl
        candidate := fun hc => by cases hc
        matched := fun hl => by cases hl }
  · exact h

theorem stop_candidacy (h : Peer n a i rf) (t : ℕ) : Peer n a i (stopCandidacy rf t) := by
  unfold stopCandidacy
  split_ifs
  · obtain ⟨b,w⟩ := h.window
    exact { h with
      window := ⟨b,window_of _ b w rfl rfl rfl rfl⟩
      leader := fun hl => by cases hl
      candidate := fun hc => by cases hc
      matched := fun hl => by cases hl }
  · exact h

theorem election_section (hs : Sound n a) (h : Peer n a i rf) (args : RequestVoteArgs)
    (he : election rf = .ok (rf', args)) :
    Sound n (stood a i) ∧ Peer n (stood a i) i rf' ∧ args.term = a.term i+1 ∧
      args.candidateId = i ∧ args.lastLogIndex = ((a.log i).length:ℤ)-1 ∧
      args.lastLogTerm = lastStamp (a.log i) := by
  obtain ⟨b,w⟩ := h.window
  have hinv := inv_stood hs.inv (i := i)
  have hterm : (stood a i).term i = a.term i+1 := by simp [stood]
  rw [election] at he
  have w' : Window (a.log i) b (persist { rf with
      currentTerm := rf.currentTerm+1, votedFor := some rf.me }) :=
    window_of _ b w rfl rfl rfl rfl
  simp only [last_log_term w', last_log_index w', ok_bind, pure, Except.pure, Except.ok.injEq,
    Prod.mk.injEq] at he
  obtain ⟨rfl,rfl⟩ := he
  refine ⟨⟨hinv,hs.indexed⟩,?_,?_,h.me,rfl,rfl⟩
  · exact
      { me := h.me
        peers := h.peers
        nextLength := h.nextLength
        matchLength := h.matchLength
        term := by rw [hterm, ← h.term]; rfl
        voted := by simp [persist, h.me, stood, set2_same]
        window := ⟨b,window_of _ b w' rfl rfl rfl rfl⟩
        committed := h.committed
        leader := fun hl => by cases hl
        candidate := fun _ => by
          rw [hterm]
          refine ⟨fun hl => ?_,a.log i,by simp [stood, set2_same]⟩
          have := hs.inv.vote_le i _ i (hs.inv.cand_vote _ i _ (hs.inv.leader_cand _ i hl))
          omega
        matched := fun hl => by cases hl
        persisted := rfl }
  · simp [persist, h.term]

theorem granted_peer (h : Peer n a i rf) (c : ℕ) :
    Peer n (granted a i c) i (persist { rf with votedFor := some c }) := by
  obtain ⟨b,w⟩ := h.window
  exact core_persist { h.toPeerCore with
    voted := by simp [granted, set2_same]
    window := ⟨b,window_of _ b w rfl rfl rfl rfl⟩ }

/-- A vote is granted only in the candidate's term and to a log that is at
least as up to date as the whole log of the voter. -/
theorem request_vote_section (hs : Sound n a) (h : Peer n a i rf) (args : RequestVoteArgs)
    (c : ℕ) (l : List (LogEntry C)) (hc : a.cand args.term c = some l)
    (hid : args.candidateId = c) (hlast : args.lastLogIndex = (l.length:ℤ)-1)
    (hterm : args.lastLogTerm = lastStamp l) (reply : RequestVoteReply)
    (he : requestVote rf args = .ok (rf', reply)) :
    ∃ a', Steps (majorities n) i a a' ∧ Sound n a' ∧ Peer n a' i rf' ∧ a'.hollow = a.hollow ∧
      (reply.voteGranted = true → a'.vote i args.term = some c) := by
  have h1 := higher_term hs h args.term
  have hs1 := raised_to_sound (i := i) hs args.term
  have hst := raised_to_steps (majorities n) a i args.term
  obtain ⟨-,-,hcand,-,-,-,-,hhol⟩ := raised_to_same a i args.term
  have hmax := raised_to_term a i args.term
  set a1 := raisedTo a i args.term
  set rf1 := handleHigherTerm rf args.term
  obtain ⟨b,w⟩ := h1.window
  have refused : rf' = rf1 → reply.voteGranted = false →
      ∃ a', Steps (majorities n) i a a' ∧ Sound n a' ∧ Peer n a' i rf' ∧ a'.hollow = a.hollow ∧
        (reply.voteGranted = true → a'.vote i args.term = some c) := by
    rintro rfl hf
    exact ⟨a1,hst,hs1,h1,hhol,fun ht => by simp [hf] at ht⟩
  simp only [requestVote, vote] at he
  split_ifs at he with hge hav
  · rw [hlast, hterm, updated_log w, ok_bind] at he
    by_cases hu : UpToDate l (a1.log i)
    · have hd : decide (lastStamp (a1.log i) < lastStamp l ∨
          lastStamp (a1.log i) = lastStamp l ∧ (a1.log i).length ≤ l.length) = true :=
        decide_eq_true hu
      rw [hd, if_pos rfl] at he
      simp only [pure, Except.pure, ok_bind, Except.ok.injEq, Prod.mk.injEq] at he
      obtain ⟨rfl,-⟩ := he
      have ht : a1.term i = args.term := by
        have hle : a1.term i ≤ args.term := h1.term ▸ hge
        omega
      have hg : Step (majorities n) i a1 (granted a1 i c) := by
        refine .grant a1 c l ?_ ?_ hu
        · rw [← h1.voted, ← hid]
          exact hav
        · rw [ht, hcand]
          exact hc
      refine ⟨granted a1 i c,hst.tail hg,⟨inv_step hs1.inv hg,hs1.indexed⟩,?_,hhol,fun _ => ?_⟩
      · rw [hid]
        exact granted_peer h1 c
      · simp [granted, ← ht, set2_same]
    · have hd : decide (lastStamp (a1.log i) < lastStamp l ∨
          lastStamp (a1.log i) = lastStamp l ∧ (a1.log i).length ≤ l.length) = false :=
        decide_eq_false hu
      rw [hd, if_neg (by simp)] at he
      simp only [pure, Except.pure, ok_bind, Except.ok.injEq, Prod.mk.injEq] at he
      exact refused he.1.symm (by rw [← he.2])
  · simp only [pure, Except.pure, ok_bind, Except.ok.injEq, Prod.mk.injEq] at he
    exact refused he.1.symm (by rw [← he.2])
  · simp only [Except.ok.injEq, Prod.mk.injEq] at he
    exact refused he.1.symm (by rw [← he.2])

/-- A candidate with a majority of votes finds its term without a leader. -/
theorem term_unled (hs : Sound n a) (h : Peer n a i rf) (hc : rf.state = .candidate)
    (v : Finset ℕ) (hv : v ⊆ Finset.range n) (hm : n/2+1 ≤ v.card)
    (hvotes : ∀ j ∈ v, a.vote j (a.term i) = some i) : a.leader (a.term i) = none := by
  cases hl : a.leader (a.term i) with
  | none => rfl
  | some c =>
    exfalso
    obtain ⟨q,hq,hqv⟩ := hs.inv.elect_ack _ c hl
    obtain ⟨j,hjq,hjv⟩ := (majorities n).meet q {j | j ∈ v} hq ⟨v,hv,hm,fun _ hj => hj⟩
    have hjc := (hqv j hjq).1
    rw [hvotes j hjv] at hjc
    obtain rfl := Option.some.inj hjc
    exact (h.candidate hc).1 hl

theorem become_leader_section (hs : Sound n a) (h : Peer n a i rf) (hc : rf.state = .candidate)
    (v : Finset ℕ) (hv : v ⊆ Finset.range n) (hm : n/2+1 ≤ v.card)
    (hvotes : ∀ j ∈ v, a.vote j (a.term i) = some i) (he : becomeLeader rf = .ok rf') :
    ∃ a', Steps (majorities n) i a a' ∧ Sound n a' ∧ Peer n a' i rf' ∧ a'.hollow = a.hollow := by
  have hn := term_unled hs h hc v hv hm hvotes
  obtain ⟨-,l,hl⟩ := h.candidate hc
  obtain ⟨b,w⟩ := h.window
  have hlog := hs.inv.log_cand i l hl hn
  have hel : Step (majorities n) i a (elected a i l) :=
    .elect a l {j | j ∈ v} hl hn ⟨v,hv,hm,fun _ hj => hj⟩ hvotes
  have hinv := inv_step hs.inv hel
  have hlead : (elected a i l).lead ((elected a i l).term i) = l := by simp [elected]
  have hco : Step (majorities n) i (elected a i l) (confirmed (elected a i l) i l.length) := by
    refine .confirm _ _ (by rw [hlead]) ?_
    rw [hlead, List.take_length]
    simp [elected, hlog]
  rw [becomeLeader, bind_ok] at he
  obtain ⟨m,hm,he⟩ := he
  rw [store_ok] at hm
  obtain ⟨hlt,rfl⟩ := hm
  simp only [pure, Except.pure, Except.ok.injEq] at he
  subst he
  refine ⟨_,(Relation.ReflTransGen.single hel).tail hco,⟨inv_step hinv hco,?_⟩,?_,rfl⟩
  · intro t
    by_cases ht : t = a.term i
    · subst ht
      have : (confirmed (elected a i l) i l.length).lead (a.term i) = l := by
        simp [confirmed, elected]
      rw [this, ← hlog]
      exact indexed_rooted n a hs _ (hs.inv.log_rooted i)
    · simpa [confirmed, elected, ht] using hs.indexed t
  · exact
      { me := h.me
        peers := h.peers
        nextLength := by simpa using h.nextLength
        matchLength := by simpa using h.matchLength
        term := h.term
        voted := h.voted
        window := ⟨b,window_of _ b w rfl rfl rfl rfl⟩
        committed := h.committed
        leader := fun _ => by simp [confirmed, elected]
        candidate := fun hc => by cases hc
        matched := fun _ j x hx => by
          simp only [List.getElem?_set, List.getElem?_map] at hx
          split_ifs at hx with hj
          · rw [Option.some.injEq, last_log_index w, hlog] at hx
            have hji : j = i := hj.symm.trans h.me
            subst hji
            simp only [claimed, confirmed, elected, set2_same]
            omega
          · obtain ⟨y,-,hy⟩ := Option.map_eq_some_iff.mp hx
            omega
        persisted := h.persisted }

theorem window_concat (l : List (LogEntry C)) (b : ℕ) (e : LogEntry C) (w : Window l b rf) :
    Window (l ++ [e]) b { rf with log := rf.log ++ [e] } := by
  have hb := w.bound
  refine ⟨w.base,w.included,?_,?_,?_⟩
  · rw [List.length_append]
    omega
  · simp only [w.log, List.drop_append_of_le_length hb]
  · rw [w.includedTerm]
    have hbelow : l <+: l ++ [e] := List.prefix_append _ _
    exact stamp_at_below _ _ b hbelow hb

/-- A leader appends an entry to its log and acknowledges it. -/
theorem append_steps (hs : Sound n a) (e : LogEntry C) (hl : a.leader (a.term i) = some i)
    (ht : e.term = a.term i) (he : e.index = (a.log i).length) :
    Steps (majorities n) i a (confirmed (appended a i e) i ((a.log i).length+1)) ∧
      Sound n (confirmed (appended a i e) i ((a.log i).length+1)) := by
  have hlog := hs.inv.log_lead i hl
  have hap : Step (majorities n) i a (appended a i e) := .append a e hl ht
  have hlead' : (appended a i e).lead ((appended a i e).term i) = a.lead (a.term i) ++ [e] := by
    simp [appended]
  have hlog' : (appended a i e).log i = a.log i ++ [e] := by simp [appended]
  have hco : Step (majorities n) i (appended a i e)
      (confirmed (appended a i e) i ((a.log i).length+1)) := by
    refine .confirm _ _ (by rw [hlead', ← hlog]; simp) ?_
    rw [hlead', hlog', ← hlog]
    exact List.take_prefix _ _
  refine ⟨(Relation.ReflTransGen.single hap).tail hco,inv_step (inv_step hs.inv hap) hco,?_⟩
  intro t
  by_cases hta : t = a.term i
  · subst hta
    have hnew : (confirmed (appended a i e) i ((a.log i).length+1)).lead (a.term i) =
        a.lead (a.term i) ++ [e] := by simp [confirmed, appended]
    rw [hnew]
    exact indexed_concat _ (hs.indexed _) e (by rw [he, hlog])
  · simpa [confirmed, appended, hta] using hs.indexed t

/-- The leader counts the new entry for itself, and nothing else changes what
it counts. -/
theorem appended_matched (hs : Sound n a) (h : Peer n a i rf) (hl : rf.state = .leader)
    (e : LogEntry C) (ht : e.term = a.term i) (he : e.index = (a.log i).length) (j : ℕ) (x : ℤ)
    (hx : (rf.matchIndex.set rf.me ((a.log i).length:ℤ))[j]? = some x) :
    x < (claimed (confirmed (appended a i e) i ((a.log i).length+1)) j (a.term i) : ℤ) := by
  rw [List.getElem?_set] at hx
  split_ifs at hx with hj
  · obtain rfl : j = i := hj.symm.trans h.me
    rw [Option.some.injEq] at hx
    simp only [claimed, confirmed, appended, set2_same]
    omega
  · have hold := h.matched hl j x hx
    have hsteps := (append_steps hs e (h.leader hl) ht he).1
    have hg := claimed_grows _ _ (steps_inv hs.inv hsteps).2.1 j (a.term i)
    omega

theorem start_section (hs : Sound n a) (h : Peer n a i rf) (hl : rf.state = .leader)
    (command : Option C) (index : ℤ) (term : ℕ) (isLeader : Bool)
    (he : start rf command = .ok (rf', index, term, isLeader)) :
    ∃ a', Steps (majorities n) i a a' ∧ Sound n a' ∧ Peer n a' i rf' ∧ a'.hollow = a.hollow ∧
      term = a.term i ∧ index = ((a.lead term).length:ℤ)+1 ∧
      a'.lead term = a.lead term ++
        [{ index := (a.lead term).length, term := term, command := command }] := by
  obtain ⟨b,w⟩ := h.window
  have hlead := h.leader hl
  have hlog := hs.inv.log_lead i hlead
  have hnext : lastLogIndex rf+1 = ((a.log i).length:ℤ) := by
    rw [last_log_index w]
    omega
  rw [start, if_pos hl, appendEntryLocal, bind_ok] at he
  obtain ⟨rf1,hrf1,he⟩ := he
  rw [bind_ok] at hrf1
  obtain ⟨m,hm,hrf1⟩ := hrf1
  rw [store_ok] at hm
  obtain ⟨hlt,rfl⟩ := hm
  simp only [pure, Except.pure, Except.ok.injEq] at hrf1
  rw [hnext, h.term] at hrf1
  generalize hedef : ({ index := ((a.log i).length:ℤ), term := a.term i, command := command } :
    LogEntry C) = e at hrf1
  have het : e.term = a.term i := by rw [← hedef]
  have hei : e.index = (a.log i).length := by rw [← hedef]
  obtain ⟨hsteps,hsound⟩ := append_steps hs e hlead het hei
  have w1 : Window (a.log i ++ [e]) b rf1 := by
    rw [← hrf1]
    exact window_of _ b (window_concat _ b e w) rfl rfl rfl rfl
  simp only [pure, Except.pure, Except.ok.injEq, Prod.mk.injEq] at he
  obtain ⟨rfl,hindex,hterm,-⟩ := he
  obtain rfl : a.term i = term := by rw [← hterm, ← hrf1]; rfl
  refine ⟨_,hsteps,hsound,?_,rfl,rfl,?_,?_⟩
  · subst hrf1
    exact
      { me := h.me
        peers := h.peers
        nextLength := h.nextLength
        matchLength := by simpa [persist] using h.matchLength
        term := rfl
        voted := h.voted
        window := ⟨b,by simpa [confirmed, appended] using w1⟩
        committed := h.committed
        leader := fun _ => hlead
        candidate := fun hc => by
          have : rf.state = .candidate := hc
          simp [hl] at this
        matched := fun _ j x hx => appended_matched hs h hl e het hei j x hx
        persisted := rfl }
  · rw [← hindex, last_log_index w1, ← hlog]
    simp
  · simp [confirmed, appended, ← hedef, hlog]

end Mitdist.RaftSections
