import Mitdist.StampedLog
import Mathlib.Logic.Relation
import Mathlib.Logic.Function.Basic

/-!
# Replication of a log by elected leaders

An abstract protocol over arbitrary servers, entries and quorums. Every log
is kept whole and every message is a prefix of the log of a leader. The
state also records the past: the votes of every term, the log with which a
server stood for a term, the log with which the leader of a term was elected,
and the length that a server acknowledged in a term. A hollow
acknowledgement is one that was given without storing anything.
-/

set_option autoImplicit false

namespace Mitdist.LeaderProtocol
open Mitdist.StampedLog

/-- A family of sets of servers of which any two share a member. -/
structure Quorums (ι : Type*) where
  IsQuorum : Set ι → Prop
  meet : ∀ p q, IsQuorum p → IsQuorum q → ∃ i, i ∈ p ∧ i ∈ q

structure History (ι E : Type*) where
  term : ι → ℕ
  log : ι → List E
  vote : ι → ℕ → Option ι
  cand : ℕ → ι → Option (List E)
  leader : ℕ → Option ι
  base : ℕ → List E
  lead : ℕ → List E
  ack : ι → ℕ → ℕ
  hollow : ι → ℕ → ℕ

variable {ι E : Type*}

/-- What a step of one server leaves alone, and what it only lets grow. -/
structure Frame (i : ι) (a b : History ι E) : Prop where
  term : ∀ j, j ≠ i → b.term j = a.term j
  log : ∀ j, j ≠ i → b.log j = a.log j
  vote : ∀ j, j ≠ i → b.vote j = a.vote j
  ack : ∀ j, j ≠ i → b.ack j = a.ack j
  hollow : ∀ j, j ≠ i → b.hollow j = a.hollow j
  leader : ∀ t j, j ≠ i → b.leader t = some j → a.leader t = some j ∧ b.lead t = a.lead t

structure Grows (a b : History ι E) : Prop where
  term : ∀ j, a.term j ≤ b.term j
  vote : ∀ j t c, a.vote j t = some c → b.vote j t = some c
  cand : ∀ t j l, a.cand t j = some l → b.cand t j = some l
  leader : ∀ t j, a.leader t = some j → b.leader t = some j ∧ b.base t = a.base t
  lead : ∀ t, a.lead t <+: b.lead t
  ack : ∀ j t, a.ack j t ≤ b.ack j t
  hollow : ∀ j t, a.hollow j t ≤ b.hollow j t

theorem grows_refl (a : History ι E) : Grows a a :=
  ⟨fun _ => le_rfl,fun _ _ _ h => h,fun _ _ _ h => h,fun _ _ h => ⟨h,rfl⟩,
    fun _ => List.prefix_rfl,fun _ _ => le_rfl,fun _ _ => le_rfl⟩

theorem grows_trans {a b c : History ι E} (h : Grows a b) (g : Grows b c) : Grows a c where
  term j := (h.term j).trans (g.term j)
  vote j t x hv := g.vote j t x (h.vote j t x hv)
  cand t j l hc := g.cand t j l (h.cand t j l hc)
  leader t j hl := ⟨(g.leader t j (h.leader t j hl).1).1,
    (g.leader t j (h.leader t j hl).1).2.trans (h.leader t j hl).2⟩
  lead t := (h.lead t).trans (g.lead t)
  ack j t := (h.ack j t).trans (g.ack j t)
  hollow j t := (h.hollow j t).trans (g.hollow j t)

theorem take_grows {a b : History ι E} (hg : Grows a b) (t k : ℕ) (hk : k ≤ (a.lead t).length) :
    (b.lead t).take k = (a.lead t).take k :=
  (take_of_below _ _ k (hg.lead t) hk).symm

/-- Some leader between the two terms was elected without the prefix. -/
def Diverged (a : History ι E) (t k u : ℕ) : Prop :=
  ∃ s, t < s ∧ s < u ∧ a.leader s ≠ none ∧ ¬ (a.lead t).take k <+: a.base s

theorem diverged_grows {a b : History ι E} (hg : Grows a b) (t k u v : ℕ)
    (hk : k ≤ (a.lead t).length) (huv : u ≤ v)
    (hd : Diverged a t k u) : Diverged b t k v := by
  obtain ⟨s,hts,hsu,hl,hn⟩ := hd
  obtain ⟨j,hj⟩ := Option.ne_none_iff_exists'.mp hl
  obtain ⟨hbl,hbb⟩ := hg.leader s j hj
  refine ⟨s,hts,by omega,by simp [hbl],?_⟩
  rwa [take_grows hg t k hk, hbb]

theorem frame_refl (i : ι) (a : History ι E) : Frame i a a :=
  ⟨fun _ _ => rfl,fun _ _ => rfl,fun _ _ => rfl,fun _ _ => rfl,fun _ _ => rfl,
    fun _ _ _ h => ⟨h,rfl⟩⟩

theorem frame_trans {i : ι} {a b c : History ι E} (h : Frame i a b) (g : Frame i b c) :
    Frame i a c where
  term j hj := (g.term j hj).trans (h.term j hj)
  log j hj := (g.log j hj).trans (h.log j hj)
  vote j hj := (g.vote j hj).trans (h.vote j hj)
  ack j hj := (g.ack j hj).trans (h.ack j hj)
  hollow j hj := (g.hollow j hj).trans (h.hollow j hj)
  leader t j hj hl := ⟨(h.leader t j hj (g.leader t j hj hl).1).1,
    (g.leader t j hj hl).2.trans (h.leader t j hj (g.leader t j hj hl).1).2⟩

variable [DecidableEq ι]

def initial : History ι E where
  term _ := 0
  log _ := []
  vote _ _ := none
  cand _ _ := none
  leader _ := none
  base _ := []
  lead _ := []
  ack _ _ := 0
  hollow _ _ := 0

def set2 {α β γ : Type*} [DecidableEq α] [DecidableEq β] (f : α → β → γ) (a : α) (b : β) (c : γ) :
    α → β → γ :=
  fun x y => if x = a ∧ y = b then c else f x y

def raised (a : History ι E) (i : ι) (t : ℕ) : History ι E :=
  { a with term := Function.update a.term i t }

def stood (a : History ι E) (i : ι) : History ι E :=
  { a with
    term := Function.update a.term i (a.term i+1)
    vote := set2 a.vote i (a.term i+1) (some i)
    cand := set2 a.cand (a.term i+1) i (some (a.log i)) }

def granted (a : History ι E) (i c : ι) : History ι E :=
  { a with vote := set2 a.vote i (a.term i) (some c) }

def elected (a : History ι E) (i : ι) (l : List E) : History ι E :=
  { a with
    leader := Function.update a.leader (a.term i) (some i)
    base := Function.update a.base (a.term i) l
    lead := Function.update a.lead (a.term i) l }

def appended (a : History ι E) (i : ι) (e : E) : History ι E :=
  { a with
    log := Function.update a.log i (a.log i ++ [e])
    lead := Function.update a.lead (a.term i) (a.lead (a.term i) ++ [e]) }

noncomputable def accepted (a : History ι E) (i : ι) (m : List E) : History ι E :=
  { a with log := Function.update a.log i (merge (a.log i) m) }

def confirmed (a : History ι E) (i : ι) (k : ℕ) : History ι E :=
  { a with ack := set2 a.ack i (a.term i) (max (a.ack i (a.term i)) k) }

def hollowed (a : History ι E) (i : ι) (k : ℕ) : History ι E :=
  { a with hollow := set2 a.hollow i (a.term i) (max (a.hollow i (a.term i)) k) }

variable [Stamped E]

/-- The steps of one server. A leader never accepts, an acknowledgement needs
the acknowledged prefix, and a hollow acknowledgement needs nothing. -/
inductive Step (Q : Quorums ι) (i : ι) : History ι E → History ι E → Prop
  | raise (a : History ι E) (t : ℕ) (h : a.term i < t) : Step Q i a (raised a i t)
  | stand (a : History ι E) : Step Q i a (stood a i)
  | grant (a : History ι E) (c : ι) (l : List E)
      (hv : a.vote i (a.term i) = none ∨ a.vote i (a.term i) = some c)
      (hc : a.cand (a.term i) c = some l) (hu : UpToDate l (a.log i)) :
      Step Q i a (granted a i c)
  | elect (a : History ι E) (l : List E) (q : Set ι)
      (hc : a.cand (a.term i) i = some l) (hn : a.leader (a.term i) = none)
      (hq : Q.IsQuorum q) (hv : ∀ j ∈ q, a.vote j (a.term i) = some i) :
      Step Q i a (elected a i l)
  | append (a : History ι E) (e : E) (hl : a.leader (a.term i) = some i)
      (he : stamp e = a.term i) : Step Q i a (appended a i e)
  | accept (a : History ι E) (m : List E) (j : ι) (hl : a.leader (a.term i) = some j)
      (hj : j ≠ i) (hm : m <+: a.lead (a.term i)) : Step Q i a (accepted a i m)
  | confirm (a : History ι E) (k : ℕ) (hk : k ≤ (a.lead (a.term i)).length)
      (hp : (a.lead (a.term i)).take k <+: a.log i) : Step Q i a (confirmed a i k)
  | hollow (a : History ι E) (k : ℕ) : Step Q i a (hollowed a i k)

def Steps (Q : Quorums ι) (i : ι) : History ι E → History ι E → Prop :=
  Relation.ReflTransGen (Step Q i)

end Mitdist.LeaderProtocol
