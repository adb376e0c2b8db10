import Mitdist.StampedLog
import Mathlib.Data.Finset.Card
import Mathlib.Data.List.Dedup

/-!
# Searching a log by its stamps

Two searches go down a log: to the start of the run of equal stamps that ends
at a position, and to the last position whose stamp is not above a bound. A
party that looks for a position at which its log matches another one backs off
by what the searches find in the two logs. If equal stamps mean equal
prefixes, every stamp of the other log costs at most one attempt.
-/

set_option autoImplicit false

namespace Mitdist.StampedSearch
open Mitdist.StampedLog

variable {E : Type*} [Stamped E]

/-- Stamps do not decrease along the log. -/
def Ascending (l : List E) : Prop :=
  ∀ j k, j ≤ k → k ≤ l.length → stampAt l j ≤ stampAt l k

/-- The start of the run of equal stamps that ends at a position. The search
stops at the first position after `b`. -/
def runStart (l : List E) (b : ℕ) : ℕ → ℕ
  | 0 => 0
  | p+1 => if b+1 ≤ p ∧ stampAt l (p+1) = stampAt l p then runStart l b p else p+1

/-- The last position, down to `b`, whose stamp is at most `t`. -/
def lastAtMost (l : List E) (b t : ℕ) : ℕ → ℕ
  | 0 => 0
  | p+1 => if b ≤ p ∧ t < stampAt l (p+1) then lastAtMost l b t p else p+1

theorem run_start_base (l : List E) (b p : ℕ) (h : p ≤ b+1) : runStart l b p = p := by
  cases p with
  | zero => rfl
  | succ p => rw [runStart, if_neg (by omega)]

theorem last_at_most_base (l : List E) (b t p : ℕ) (h : p ≤ b) : lastAtMost l b t p = p := by
  cases p with
  | zero => rfl
  | succ p => rw [lastAtMost, if_neg (by omega)]

theorem run_start_le (l : List E) (b p : ℕ) : runStart l b p ≤ p := by
  induction p with
  | zero => exact le_rfl
  | succ p ih =>
    rw [runStart]
    split_ifs
    · omega
    · exact le_rfl

theorem run_start_pos (l : List E) (b p : ℕ) (h : 0 < p) : 0 < runStart l b p := by
  induction p with
  | zero => omega
  | succ p ih =>
    rw [runStart]
    split_ifs with hc
    · exact ih (by omega)
    · omega

theorem run_start_above (l : List E) (b p : ℕ) (h : b < p) : b < runStart l b p := by
  induction p with
  | zero => omega
  | succ p ih =>
    rw [runStart]
    split_ifs with hc
    · exact ih (by omega)
    · exact h

/-- Before the start of a run there is another stamp, unless the search had
to stop there. -/
theorem run_start_before (l : List E) (b p : ℕ) (h : b+1 < runStart l b p) :
    stampAt l (runStart l b p - 1) ≠ stampAt l p := by
  induction p with
  | zero => simp [runStart] at h
  | succ p ih =>
    rw [runStart] at h ⊢
    split_ifs at h ⊢ with hc
    · rw [hc.2]
      exact ih h
    · intro he
      exact hc ⟨by omega,he.symm⟩

theorem last_at_most_le (l : List E) (b t p : ℕ) : lastAtMost l b t p ≤ p := by
  induction p with
  | zero => exact le_rfl
  | succ p ih =>
    rw [lastAtMost]
    split_ifs
    · omega
    · exact le_rfl

theorem run_start_stamps (l : List E) (b p k : ℕ) (hk : runStart l b p ≤ k) (hp : k ≤ p) :
    stampAt l k = stampAt l p := by
  induction p with
  | zero =>
    obtain rfl : k = 0 := by omega
    rfl
  | succ p ih =>
    rw [runStart] at hk
    split_ifs at hk with hc
    · rcases Nat.le_succ_iff.mp hp with hle | rfl
      · rw [hc.2]
        exact ih hk hle
      · rfl
    · obtain rfl : k = p+1 := by omega
      rfl

theorem last_at_most_above (l : List E) (b t p k : ℕ) (hk : k ≤ p) (ht : stampAt l k ≤ t) :
    k ≤ lastAtMost l b t p := by
  induction p with
  | zero => exact hk
  | succ p ih =>
    rw [lastAtMost]
    split_ifs with hc
    · rcases Nat.le_succ_iff.mp hk with hle | rfl
      · exact ih hle
      · exact absurd hc.2 (not_lt.mpr ht)
    · exact hk

theorem last_at_most_stamp (l : List E) (b t p : ℕ) (h : b < lastAtMost l b t p) :
    stampAt l (lastAtMost l b t p) ≤ t := by
  induction p with
  | zero => simp [lastAtMost] at h
  | succ p ih =>
    rw [lastAtMost] at h ⊢
    split_ifs at h ⊢ with hc
    · exact ih h
    · omega

/-- The position agrees with the log that is looked for. -/
def Matches (l f : List E) (x : ℕ) : Prop := x ≤ f.length ∧ stampAt f x = stampAt l x

/-- Where to look after the position `x` of the log `l` did not match the log
`f`: at the end of a shorter log, before the last entry with the other log's
stamp, or before the other log's run. -/
def backoff (l f : List E) (x : ℕ) : ℕ :=
  if f.length < x then f.length
  else if 0 < lastAtMost l 0 (stampAt f x) x ∧
      stampAt l (lastAtMost l 0 (stampAt f x) x) = stampAt f x then
    lastAtMost l 0 (stampAt f x) x - 1
  else runStart f 0 x - 1

theorem matches_zero (l f : List E) : Matches l f 0 := ⟨Nat.zero_le _,rfl⟩

theorem backoff_lt (l f : List E) (x : ℕ) (h : ¬ Matches l f x) : backoff l f x < x := by
  have hx : 0 < x := by
    by_contra hc
    obtain rfl : x = 0 := by omega
    exact h (matches_zero l f)
  have hlast := last_at_most_le l 0 (stampAt f x) x
  have hrun := run_start_le f 0 x
  rw [backoff]
  split_ifs <;> omega

/-- No position at which the two logs agree is passed by more than one. -/
theorem backoff_retains (l f : List E) (hl : Ascending l) (hf : Ascending f) (x q : ℕ)
    (hx : x ≤ l.length) (hpos : 0 < x) (hq : Matches l f q) (hqx : q ≤ x) :
    q ≤ backoff l f x + 1 := by
  obtain ⟨hqf,hstamp⟩ := hq
  rw [backoff]
  split_ifs with hshort hfound
  · omega
  · have hrise := hf q x hqx (by omega)
    have habove := last_at_most_above l 0 (stampAt f x) x q hqx (by omega)
    omega
  · have hrun := run_start_pos f 0 x hpos
    by_contra hc
    have hsame := run_start_stamps f 0 x q (by omega) hqx
    have habove := last_at_most_above l 0 (stampAt f x) x q hqx (by omega)
    have hlast := last_at_most_stamp l 0 (stampAt f x) x (by omega)
    have hrise := hl q _ habove ((last_at_most_le l 0 (stampAt f x) x).trans hx)
    exact hfound ⟨by omega,by omega⟩

def stampsBelow (f : List E) (x : ℕ) : Finset ℕ := ((f.take x).map stamp).toFinset

theorem mem_stamps_below (f : List E) (x t : ℕ) :
    t ∈ stampsBelow f x ↔ ∃ k, 0 < k ∧ k ≤ x ∧ k ≤ f.length ∧ stampAt f k = t := by
  rw [stampsBelow, List.mem_toFinset, List.mem_map]
  constructor
  · rintro ⟨e,he,rfl⟩
    obtain ⟨k,hk⟩ := List.mem_iff_getElem?.mp he
    rw [List.getElem?_take] at hk
    split_ifs at hk with hlt
    have hlen := (List.getElem?_eq_some_iff.mp hk).1
    exact ⟨k+1,by omega,by omega,by omega,stamp_at_succ f k e hk⟩
  · rintro ⟨k,hpos,hkx,hlen,rfl⟩
    obtain ⟨j,rfl⟩ : ∃ j, k = j+1 := ⟨k-1,by omega⟩
    obtain ⟨e,he,hs⟩ := getElem_stamp_at f j (by omega)
    exact ⟨e,List.mem_iff_getElem?.mpr ⟨j,by rw [List.getElem?_take, if_pos (by omega), he]⟩,hs⟩

/-- Backing off before a run leaves one stamp fewer below. -/
theorem stamps_before_run (f : List E) (hf : Ascending f) (x : ℕ) (hx : 0 < x)
    (hlen : x ≤ f.length) :
    (stampsBelow f (runStart f 0 x - 1)).card < (stampsBelow f x).card := by
  have hle := run_start_le f 0 x
  apply Finset.card_lt_card
  refine ⟨fun t ht => ?_,fun hsub => ?_⟩
  · obtain ⟨k,hpos,hkx,hk,hs⟩ := (mem_stamps_below f _ t).mp ht
    exact (mem_stamps_below f x t).mpr ⟨k,hpos,by omega,hk,hs⟩
  · have hmem := hsub ((mem_stamps_below f x (stampAt f x)).mpr ⟨x,hx,le_rfl,hlen,rfl⟩)
    obtain ⟨k,hpos,hkx,hk,hs⟩ := (mem_stamps_below f _ _).mp hmem
    have hbefore := run_start_before f 0 x (by omega)
    have hlow := hf k (runStart f 0 x - 1) hkx (by omega)
    have hhigh := hf (runStart f 0 x - 1) x (by omega) hlen
    omega

/-- Equal stamps in the two logs end equal prefixes, also where the run of
the stamp is longer in the second log. -/
def Shares (l f : List E) : Prop :=
  ∀ q x, q ≤ x → q ≤ l.length → x ≤ f.length → 0 < q → stampAt l q = stampAt f x →
    stampAt l (q-1) = stampAt f (q-1)

/-- From a position of the other log, every stamp below costs at most one
attempt, and so does every position. -/
theorem backoff_within (l f : List E) (hf : Ascending f) (hs : Shares l f) (x : ℕ)
    (hl : x ≤ l.length) (hx : x ≤ f.length) :
    ∃ k, k ≤ x ∧ k ≤ (stampsBelow f x).card ∧ (∀ i < k, ¬ Matches l f ((backoff l f)^[i] x)) ∧
      Matches l f ((backoff l f)^[k] x) := by
  induction x using Nat.strong_induction_on with
  | h x ih =>
    by_cases hm : Matches l f x
    · exact ⟨0,Nat.zero_le _,Nat.zero_le _,fun i hi => absurd hi (Nat.not_lt_zero i),hm⟩
    have hlt := backoff_lt l f x hm
    have hpos : 0 < x := by omega
    have hcard : 0 < (stampsBelow f x).card :=
      Finset.card_pos.mpr ⟨_,(mem_stamps_below f x _).mpr ⟨x,hpos,le_rfl,hx,rfl⟩⟩
    have hstep : ∃ k, k ≤ backoff l f x ∧ k+1 ≤ (stampsBelow f x).card ∧
        (∀ i < k, ¬ Matches l f ((backoff l f)^[i] (backoff l f x))) ∧
        Matches l f ((backoff l f)^[k] (backoff l f x)) := by
      by_cases hfound : 0 < lastAtMost l 0 (stampAt f x) x ∧
          stampAt l (lastAtMost l 0 (stampAt f x) x) = stampAt f x
      · have heq : backoff l f x = lastAtMost l 0 (stampAt f x) x - 1 := by
          rw [backoff, if_neg (by omega), if_pos hfound]
        have hle := last_at_most_le l 0 (stampAt f x) x
        have hnext : Matches l f (backoff l f x) := by
          rw [heq]
          exact ⟨by omega,(hs _ x hle (by omega) hx hfound.1 hfound.2).symm⟩
        exact ⟨0,Nat.zero_le _,hcard,fun i hi => absurd hi (Nat.not_lt_zero i),hnext⟩
      · have heq : backoff l f x = runStart f 0 x - 1 := by
          rw [backoff, if_neg (by omega), if_neg hfound]
        have hfewer := stamps_before_run f hf x hpos hx
        obtain ⟨k,hk,hkc,hno,hyes⟩ := ih (backoff l f x) hlt (by omega) (by omega)
        rw [← heq] at hfewer
        exact ⟨k,hk,by omega,hno,hyes⟩
    obtain ⟨k,hk,hkc,hno,hyes⟩ := hstep
    refine ⟨k+1,by omega,hkc,fun i hi => ?_,?_⟩
    · cases i with
      | zero => exact hm
      | succ i =>
        rw [Function.iterate_succ_apply]
        exact hno i (by omega)
    · rw [Function.iterate_succ_apply]
      exact hyes

/-- Backing off reaches a match after at most one attempt for every stamp of
the other log and one for its length. -/
theorem backoff_settles (l f : List E) (hf : Ascending f) (hs : Shares l f) (x : ℕ)
    (hl : x ≤ l.length) :
    ∃ k, k ≤ x ∧ k ≤ 1+(f.map stamp).toFinset.card ∧
      (∀ i < k, ¬ Matches l f ((backoff l f)^[i] x)) ∧ Matches l f ((backoff l f)^[k] x) := by
  have hall : ∀ y, (stampsBelow f y).card ≤ (f.map stamp).toFinset.card := by
    intro y
    apply Finset.card_le_card
    intro t ht
    simp only [stampsBelow, List.mem_toFinset, List.mem_map] at ht ⊢
    obtain ⟨e,he,rfl⟩ := ht
    exact ⟨e,List.mem_of_mem_take he,rfl⟩
  rcases le_or_gt x f.length with hx | hx
  · obtain ⟨k,hk,hkc,hno,hyes⟩ := backoff_within l f hf hs x hl hx
    have := hall x
    exact ⟨k,hk,by omega,hno,hyes⟩
  · have heq : backoff l f x = f.length := by rw [backoff, if_pos hx]
    obtain ⟨k,hk,hkc,hno,hyes⟩ := backoff_within l f hf hs f.length (by omega) le_rfl
    have := hall f.length
    refine ⟨k+1,by omega,by omega,fun i hi => ?_,?_⟩
    · cases i with
      | zero => exact fun hm => absurd hm.1 (not_le.mpr hx)
      | succ i =>
        rw [Function.iterate_succ_apply, heq]
        exact hno i (by omega)
    · rw [Function.iterate_succ_apply, heq]
      exact hyes

end Mitdist.StampedSearch
