import Mitdist.RaftIndices
import Mathlib.Data.List.Count
import Mathlib.Algebra.Order.Group.Int

/-!
# The commit step of a leader

A leader may commit an index of its term that a majority holds. The polling
loop goes up from the commit index to the first index without a majority and
compares the term of one entry. Counts of match indices fall along the log
and terms rise, so the one entry decides for all.
-/

set_option autoImplicit false

namespace Mitdist.CommitStep
open Mitdist.RaftPeer Mitdist.RaftHandlers Mitdist.RaftOutcomes Mitdist.RaftIndices

variable {C : Type}

/-- The indices that a leader may commit. -/
def Committable (rf : Raft C) (N : ℤ) : Prop :=
  rf.commitIndex < N ∧ N ≤ lastLogIndex rf ∧
    majority rf ≤ rf.matchIndex.countP (fun m => N ≤ m) ∧
    ∃ e, logEntry rf N = .ok e ∧ e.term = rf.currentTerm

theorem replicated_count (rf : Raft C) (N : ℤ) :
    nReplicated rf N = rf.matchIndex.countP (fun m => N ≤ m) := by
  rw [nReplicated]
  induction rf.matchIndex using List.reverseRecOn with
  | nil => rfl
  | append_singleton l m ih =>
    rw [List.foldl_append, List.foldl_cons, List.foldl_nil, ih, List.countP_append,
      List.countP_singleton]
    by_cases h : N ≤ m
    · rw [if_pos h, if_pos (decide_eq_true h)]
    · rw [if_neg h, if_neg (by simpa using h)]
      rfl

theorem replicated_falls (rf : Raft C) (M N : ℤ) (h : M ≤ N) :
    nReplicated rf N ≤ nReplicated rf M := by
  rw [replicated_count, replicated_count]
  apply List.countP_mono_left
  intro m _ hm
  have hle : N ≤ m := by simpa using hm
  exact decide_eq_true (h.trans hle)

/-- The search ends at the end of the log or before an index without a majority. -/
theorem largest_loop_stops (rf : Raft C) (fuel : ℕ) (s : ℤ) :
    largestOnMajorityLoop rf fuel s = lastLogIndex rf ∨
      nReplicated rf (largestOnMajorityLoop rf fuel s + 1) < majority rf := by
  induction fuel generalizing s with
  | zero => exact Or.inl rfl
  | succ fuel ih =>
    rw [largestOnMajorityLoop]
    split_ifs with hs hr
    · right
      rw [Int.sub_add_cancel]
      exact hr
    · exact ih (s+1)
    · exact Or.inl rfl

theorem majority_below (rf : Raft C) (N : ℤ) (hlast : N ≤ lastLogIndex rf)
    (h : majority rf ≤ nReplicated rf N) : N ≤ largestOnMajority rf := by
  by_contra hc
  rcases largest_loop_stops rf (lastLogIndex rf - rf.commitIndex).toNat (rf.commitIndex + 1) with
    hend | hstop
  · rw [largestOnMajority, hend] at hc
    exact hc hlast
  · have hfall := replicated_falls rf (largestOnMajority rf + 1) N (by omega)
    rw [largestOnMajority] at hfall
    omega

section
variable (rf : Raft C) (hbase : rf.baseIndex = rf.lastIncludedIndex + 1)
  (hlow : rf.lastIncludedIndex ≤ rf.commitIndex)
include hbase hlow

theorem uncommitted_entry (x : ℤ) (hx : rf.commitIndex < x) :
    logEntry rf x = load rf.log (x - rf.baseIndex) ∧ 0 ≤ x - rf.baseIndex := by
  constructor
  · rw [logEntry, if_neg (by omega)]
  · omega

theorem uncommitted_reads (x : ℤ) (hx : rf.commitIndex < x) (hlast : x ≤ lastLogIndex rf) :
    ∃ e, logEntry rf x = .ok e ∧ e ∈ rf.log := by
  obtain ⟨heq,hpos⟩ := uncommitted_entry rf hbase hlow x hx
  rw [lastLogIndex] at hlast
  have hlt : (x - rf.baseIndex).toNat < rf.log.length := by omega
  have hget := List.getElem?_eq_getElem hlt
  rw [heq]
  exact ⟨_,(load_ok _ _ _).mpr ⟨hpos,hget⟩,List.getElem_mem hlt⟩

theorem uncommitted_terms (hsorted : rf.log.Pairwise (fun d e => d.term ≤ e.term)) (x y : ℤ)
    (hx : rf.commitIndex < x) (hxy : x ≤ y) (d e : LogEntry C) (hd : logEntry rf x = .ok d)
    (he : logEntry rf y = .ok e) : d.term ≤ e.term := by
  rw [(uncommitted_entry rf hbase hlow x hx).1, load_ok] at hd
  rw [(uncommitted_entry rf hbase hlow y (by omega)).1, load_ok] at he
  rcases eq_or_lt_of_le hxy with rfl | hlt
  · have hsame : d = e := Option.some.inj (hd.2.symm.trans he.2)
    rw [hsame]
  · obtain ⟨hi,rfl⟩ := List.getElem?_eq_some_iff.mp hd.2
    obtain ⟨hj,rfl⟩ := List.getElem?_eq_some_iff.mp he.2
    exact List.pairwise_iff_getElem.mp hsorted _ _ hi hj (by omega)

/-- If any index may be committed, the one that the search returns is the
largest. -/
theorem committable_largest (hsorted : rf.log.Pairwise (fun d e => d.term ≤ e.term))
    (hterms : ∀ e ∈ rf.log, e.term ≤ rf.currentTerm) (N : ℤ) (h : Committable rf N) :
    N ≤ largestOnMajority rf ∧ Committable rf (largestOnMajority rf) := by
  obtain ⟨hup,hlast,hmaj,d,hd,hdt⟩ := h
  rw [← replicated_count] at hmaj
  have hle := majority_below rf N hlast hmaj
  obtain ⟨hl,hlm⟩ := largest_on_majority rf (by omega)
  obtain ⟨e,he,hmem⟩ := uncommitted_reads rf hbase hlow _ (by omega) hl
  have hrise := uncommitted_terms rf hbase hlow hsorted N _ hup hle d e hd he
  have hcur := hterms e hmem
  rw [replicated_count] at hlm
  exact ⟨hle,by omega,hl,hlm,e,he,by omega⟩

theorem advance_commit_step (hl : rf.state = .leader) :
    Committable rf (largestOnMajority rf) ∧
        advanceCommitIndex rf = .ok { rf with commitIndex := largestOnMajority rf } ∨
      ¬ Committable rf (largestOnMajority rf) ∧ advanceCommitIndex rf = .ok rf := by
  rw [advanceCommitIndex, if_pos (Or.inl hl)]
  by_cases hup : rf.commitIndex < largestOnMajority rf
  · obtain ⟨hlast,hmaj⟩ := largest_on_majority rf hup
    obtain ⟨e,he,-⟩ := uncommitted_reads rf hbase hlow _ hup hlast
    rw [replicated_count] at hmaj
    simp only
    rw [if_pos ⟨by omega,hup⟩, he, ok_bind]
    by_cases ht : e.term = rf.currentTerm
    · left
      rw [if_pos ht]
      exact ⟨⟨hup,hlast,hmaj,e,he,ht⟩,rfl⟩
    · right
      rw [if_neg ht]
      refine ⟨?_,rfl⟩
      rintro ⟨-,-,-,d,hd,hdt⟩
      rw [he] at hd
      exact ht (Except.ok.inj hd ▸ hdt)
  · right
    simp only
    rw [if_neg (fun hc => hup hc.2)]
    exact ⟨fun hc => hup hc.1,rfl⟩

end

/-- One iteration of a leader's polling loop moves the commit index to the
largest index that may be committed, and leaves it alone if there is none. -/
theorem advance_commit_exact (rf : Raft C) (hl : rf.state = .leader)
    (hbase : rf.baseIndex = rf.lastIncludedIndex + 1)
    (hsorted : rf.log.Pairwise (fun d e => d.term ≤ e.term))
    (hterms : ∀ e ∈ rf.log, e.term ≤ rf.currentTerm)
    (hlow : rf.lastIncludedIndex ≤ rf.commitIndex) :
    (∃ N, Committable rf N ∧ (∀ M, Committable rf M → M ≤ N) ∧
        advanceCommitIndex rf = .ok { rf with commitIndex := N }) ∨
      (∀ M, ¬ Committable rf M) ∧ advanceCommitIndex rf = .ok rf := by
  have hlargest := committable_largest rf hbase hlow hsorted hterms
  rcases advance_commit_step rf hbase hlow hl with ⟨hc,heq⟩ | ⟨hc,heq⟩
  · exact Or.inl ⟨_,hc,fun M hM => (hlargest M hM).1,heq⟩
  · exact Or.inr ⟨fun M hM => hc (hlargest M hM).2,heq⟩

/-- A trimmed leader of term 3 whose entries at 5 and 6 are on a majority. -/
def trimmedLeader : Raft ℕ where
  persister := {}
  me := 0
  peersCount := 3
  currentTerm := 3
  votedFor := some 0
  log := [⟨4,2,some 1⟩,⟨5,2,some 2⟩,⟨6,3,some 3⟩,⟨7,3,some 4⟩]
  lastIncludedIndex := 3
  lastIncludedTerm := 1
  baseIndex := 4
  state := .leader
  commitIndex := 4
  lastApplied := 4
  nextIndex := [8,7,4]
  matchIndex := [7,6,3]
  snapshot := []
  snapshotInstalled := false

theorem advance_commit_exact_trimmed : ∃ N, Committable trimmedLeader N ∧
    (∀ M, Committable trimmedLeader M → M ≤ N) ∧
    advanceCommitIndex trimmedLeader = .ok { trimmedLeader with commitIndex := N } := by
  have hex := advance_commit_exact trimmedLeader rfl (by decide) (by decide) (by decide)
    (by decide)
  rcases hex with h | ⟨h,-⟩
  · exact h
  · exact absurd ⟨by decide,by decide,by decide,_,rfl,rfl⟩ (h 6)

end Mitdist.CommitStep
