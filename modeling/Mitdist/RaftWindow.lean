import Mitdist.RaftOutcomes
import Mitdist.StampedLog

/-!
# The retained window of a log

A peer shows a whole log from a position on: what it discarded survives as
the position and the term before it. Every operation on the peer's log is
specified here by its effect on the whole log, so that trimming is visible in
this module only.
-/

set_option autoImplicit false

namespace Mitdist.RaftWindow
open Mitdist.RaftPeer Mitdist.RaftHandlers Mitdist.RaftOutcomes Mitdist.StampedLog

variable {C : Type}

instance : Stamped (LogEntry C) := ⟨LogEntry.term⟩

theorem stamp_term (e : LogEntry C) : stamp e = e.term := rfl

def Indexed (l : List (LogEntry C)) : Prop :=
  ∀ (k : ℕ) (e : LogEntry C), l[k]? = some e → e.index = k

structure Window (l : List (LogEntry C)) (b : ℕ) (rf : Raft C) : Prop where
  base : rf.baseIndex = b
  included : rf.lastIncludedIndex = (b:ℤ)-1
  bound : b ≤ l.length
  log : rf.log = l.drop b
  includedTerm : rf.lastIncludedTerm = stampAt l b

section
variable {l : List (LogEntry C)} {b : ℕ} {rf : Raft C} (w : Window l b rf)
include w

/-- A server that has discarded nothing shows its whole log. -/
theorem whole_base (h : rf.lastIncludedIndex = -1) : Window l 0 rf := by
  have hincluded := w.included
  obtain rfl : b = 0 := by omega
  exact w

theorem whole_retained (h : rf.lastIncludedIndex = -1) : rf.log = l := by
  rw [(whole_base w h).log, List.drop_zero]

theorem last_log_index : lastLogIndex rf = (l.length:ℤ)-1 := by
  have hb := w.bound
  rw [lastLogIndex, w.base, w.log, List.length_drop]
  omega

theorem log_getElem (k : ℕ) (hk : b ≤ k) : rf.log[k-b]? = l[k]? := by
  rw [w.log, List.getElem?_drop, Nat.add_sub_cancel' hk]

theorem log_entry_beyond (k : ℕ) (hk : b ≤ k) : logEntry rf k = load l k := by
  have hne : (k:ℤ) ≠ rf.lastIncludedIndex := by
    rw [w.included]
    omega
  rw [logEntry, if_neg hne, w.base, load, load, if_neg (by omega), if_neg (by omega)]
  have hkb : ((k:ℤ)-b).toNat = k-b := by omega
  rw [hkb, log_getElem w k hk, Int.toNat_natCast]

theorem log_entry_get (k : ℕ) (e : LogEntry C) (hk : b ≤ k) (he : l[k]? = some e) :
    logEntry rf k = .ok e := by
  rw [log_entry_beyond w k hk, load_ok]
  exact ⟨by omega,by simpa using he⟩

theorem log_entry_included :
    logEntry rf ((b:ℤ)-1) = .ok { index := (b:ℤ)-1, term := stampAt l b, command := none } := by
  rw [logEntry, if_pos w.included.symm, w.includedTerm]

/-- What can be read: the placeholder at the snapshot's position, or the
entry of the whole log at a retained index. -/
theorem log_entry_cases (x : ℤ) (e : LogEntry C) (h : logEntry rf x = .ok e) :
    (x = (b:ℤ)-1 ∧ e = { index := (b:ℤ)-1, term := stampAt l b, command := none }) ∨
      ∃ k : ℕ, x = k ∧ b ≤ k ∧ l[k]? = some e := by
  by_cases hx : x = rf.lastIncludedIndex
  · left
    rw [w.included] at hx
    subst hx
    rw [log_entry_included w] at h
    exact ⟨rfl,(Except.ok.inj h).symm⟩
  · right
    have hl := h
    rw [logEntry, if_neg hx, load_ok, w.base] at hl
    obtain ⟨k,rfl⟩ : ∃ k : ℕ, x = k := ⟨x.toNat,by omega⟩
    have hk : b ≤ k := by omega
    rw [log_entry_beyond w k hk, load_ok] at h
    exact ⟨k,rfl,hk,by simpa using h.2⟩

theorem log_entry_term (x : ℤ) (e : LogEntry C) (h : logEntry rf x = .ok e) :
    ∃ p : ℕ, x = (p:ℤ)-1 ∧ b ≤ p ∧ p ≤ l.length ∧ e.term = stampAt l p := by
  rcases log_entry_cases w x e h with ⟨rfl,rfl⟩ | ⟨k,rfl,hk,he⟩
  · exact ⟨b,rfl,le_rfl,w.bound,rfl⟩
  · have hlt : k < l.length := (List.getElem?_eq_some_iff.mp he).1
    exact ⟨k+1,by omega,by omega,hlt,(stamp_at_succ l k e he).symm⟩

theorem log_entry_ok (p : ℕ) (hb : b ≤ p) (hp : p ≤ l.length) :
    ∃ e, logEntry rf ((p:ℤ)-1) = .ok e ∧ e.term = stampAt l p := by
  rcases eq_or_lt_of_le hb with rfl | hlt
  · exact ⟨_,log_entry_included w,rfl⟩
  · obtain ⟨k,rfl⟩ : ∃ k, p = k+1 := ⟨p-1,by omega⟩
    obtain ⟨e,he,hs⟩ := getElem_stamp_at l k hp
    refine ⟨e,?_,hs⟩
    have hk : ((k+1:ℕ):ℤ)-1 = k := by omega
    rw [hk]
    exact log_entry_get w k e (by omega) he

theorem last_log_term : lastLogTerm rf = .ok (lastStamp l) := by
  obtain ⟨e,he,hs⟩ := log_entry_ok w l.length w.bound le_rfl
  rw [lastLogTerm, last_log_index w, he, ok_bind, hs]
  rfl

theorem entry_has_term (p : ℕ) (hb : b ≤ p) (t : ℕ) :
    entryHasTerm rf ((p:ℤ)-1) t = .ok (decide (p ≤ l.length ∧ stampAt l p = t)) := by
  rw [entryHasTerm, w.included, last_log_index w, w.includedTerm]
  split_ifs with h1 h2
  · have hpb : p = b := by omega
    subst hpb
    simp [w.bound, eq_comm]
  · simp
    omega
  · obtain ⟨e,he,hs⟩ := log_entry_ok w p hb (by omega)
    rw [he, ok_bind, hs]
    have hle : p ≤ l.length := by omega
    simp [hle, pure, Except.pure]

theorem updated_log (lastTerm len : ℕ) :
    updatedLog rf lastTerm ((len:ℤ)-1) =
      .ok (decide (lastStamp l < lastTerm ∨ lastStamp l = lastTerm ∧ l.length ≤ len)) := by
  rw [updatedLog, last_log_term w, ok_bind, last_log_index w]
  simp only [pure, Except.pure, Except.ok.injEq, decide_eq_decide]
  omega

/-- Trimming moves the window and leaves the whole log alone. -/
theorem trim_window (hi : Indexed l) (p : ℕ) (hb : b < p) (hp : p ≤ l.length) :
    trim rf ((p:ℤ)-1) = .ok { rf with
      log := l.drop p
      lastIncludedIndex := (p:ℤ)-1
      lastIncludedTerm := stampAt l p
      baseIndex := p } := by
  obtain ⟨k,rfl⟩ : ∃ k, p = k+1 := ⟨p-1,by omega⟩
  obtain ⟨e,he,hs⟩ := getElem_stamp_at l k hp
  have hk : ((k+1:ℕ):ℤ)-1 = k := by omega
  have hr := log_entry_get w k e (by omega) he
  have hidx := hi k e he
  rw [trim, hk, hr, ok_bind, last_log_index w]
  have hterm : e.term = stampAt l (k+1) := hs
  split_ifs with h1 h2
  · have hd : l.drop (k+1) = [] := List.drop_eq_nil_of_le (by omega)
    simp [pure, Except.pure, bind, Except.bind, hd, hidx, hterm]
  · exact absurd hidx h2
  · have hd : rf.log.drop ((k:ℤ)-rf.baseIndex+1).toNat = l.drop (k+1) := by
      rw [w.log, w.base, List.drop_drop]
      congr 1
      omega
    have hbound : 0 ≤ (k:ℤ)-rf.baseIndex+1 ∧ (k:ℤ)-rf.baseIndex+1 ≤ rf.log.length := by
      rw [w.log, w.base, List.length_drop]
      omega
    rw [sliceFrom, if_pos hbound, ok_bind, hd]
    simp [pure, Except.pure, hidx, hterm]

/-- Appending compares terms only. Where equal terms mean equal prefixes, the
loop leaves the merge of the whole log with the request's log. -/
theorem append_loop (m : List (LogEntry C)) (hm : Indexed m)
    (hagree : ∀ k, k ≤ l.length → k ≤ m.length → stampAt l k = stampAt m k → l.take k = m.take k)
    (entries : List (LogEntry C)) (p : ℕ) (hb : b ≤ p) (hl : p ≤ l.length) (hp : p ≤ m.length)
    (ht : l.take p = m.take p) (he : m.drop p = entries) :
    appendLoop rf entries = .ok { rf with log := (merge l m).drop b } := by
  induction entries generalizing p with
  | nil =>
    have hpm : p = m.length := by
      have := List.drop_eq_nil_iff.mp he
      omega
    have hml : m <+: l := by
      rw [hpm, List.take_length] at ht
      rw [← ht]
      exact List.take_prefix _ _
    rcases merge_cases l m with ⟨-,hc⟩ | ⟨hn,-⟩
    · rw [appendLoop, hc, ← w.log]
    · exact absurd hml hn
  | cons e entries ih =>
    have hlt : p < m.length := by
      by_contra hc
      simp [List.drop_eq_nil_of_le (not_lt.mp hc)] at he
    have hget : m[p]? = some e := by
      have h0 := congrArg (fun s : List (LogEntry C) => s[0]?) he
      simpa using h0
    have hnext : m.drop (p+1) = entries := by
      have h1 := congrArg List.tail he
      simpa [List.tail_drop] using h1
    have hidx := hm p e hget
    have hcast : (p:ℤ) = ((p+1:ℕ):ℤ)-1 := by omega
    rw [appendLoop, hidx, hcast, entry_has_term w (p+1) (by omega), ok_bind]
    have hstamp := stamp_at_succ m p e hget
    by_cases hc : p+1 ≤ l.length ∧ stampAt l (p+1) = e.term
    · rw [decide_eq_true hc, if_pos rfl]
      exact ih (p+1) (by omega) hc.1 hlt
        (hagree (p+1) hc.1 hlt (by rw [hstamp]; exact hc.2)) hnext
    · rw [decide_eq_false hc, if_neg (by simp), ← hcast, logEntriesTo, sliceTo, w.base]
      have hbound : 0 ≤ (p:ℤ)-b ∧ (p:ℤ)-b ≤ rf.log.length := by
        rw [w.log, List.length_drop]
        omega
      rw [if_pos hbound, ok_bind]
      have hn : ¬ m <+: l := by
        intro hml
        have hle := hml.length_le
        exact hc ⟨by omega,by rw [← stamp_at_below m l (p+1) hml hlt, hstamp]; rfl⟩
      have hkept : rf.log.take ((p:ℤ)-b).toNat ++ e::entries = m.drop b := by
        have hpb : ((p:ℤ)-b).toNat = p-b := by omega
        rw [w.log, hpb, ← List.drop_take, ht, ← he, ← List.drop_append_of_le_length,
          List.take_append_drop]
        simp
        omega
      rcases merge_cases l m with ⟨hml,-⟩ | ⟨-,hc⟩
      · exact absurd hml hn
      · rw [hkept, hc]
        rfl

end

end Mitdist.RaftWindow
