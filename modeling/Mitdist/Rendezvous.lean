import Mitdist.KvHandlers
import Mitdist.TransitionSystem
import Mathlib.Data.List.Perm.Basic

/-!
# The meeting of the handlers and the apply loop

After a command the apply loop receives once from every handler that is
registered for its index, and a handler that leaves sends while it holds the
mutex. If `Start` returns indices beyond all that was delivered, the number of
receives is the number of the handlers that still have to leave, in every
state that any interleaving reaches, so that no send and no receive waits
forever.
-/

set_option autoImplicit false

namespace Mitdist.Rendezvous
open Mitdist.RaftPeer Mitdist.RaftOutcomes Mitdist.KvServer Mitdist.TransitionSystem
open Mitdist.KvHandlers (Server Handler Mutex Action Reply Acted launch step_acted registered
  deregistered)

/-- A server, the largest index that was delivered to its apply loop, the index
of the last command that the loop took, and the handlers that were waiting when
the loop broadcast last and did not go to wait since. -/
structure Meeting where
  server : Server
  delivered : ℤ
  applied : ℤ
  called : List Handler

/-- Indices of commands start at one. -/
def start : Meeting := ⟨launch,0,0,[]⟩

def deliveredBy (delivered : ℤ) : Action → ℤ
  | .apply m => max delivered (if m.commandValid then m.commandIndex else m.snapshotIndex)
  | _ => delivered

def appliedBy (applied : ℤ) : Action → ℤ
  | .apply m => if m.commandValid then m.commandIndex else applied
  | _ => applied

/-- The apply loop broadcasts if it is going to receive. -/
def calledBy (x y : Server) (called : List Handler) : Action → List Handler
  | .apply _ => if y.receives = 0 then called else x.waiting
  | .loop => if y.mu = .free then called.filter (fun h => x.mu.handler ≠ some h) else called
  | _ => called

def step (decode : Bytes → Option (Requests × Values)) (x : Meeting) (a : Action) :
    Option Meeting :=
  (KvHandlers.step decode x.server a).map (fun y => {
    server := y.1
    delivered := deliveredBy x.delivered a
    applied := appliedBy x.applied a
    called := calledBy x.server y.1 x.called a })

/-- `Start` returns an index beyond all that was delivered. -/
def Fresh (x : Meeting) : Action → Prop
  | .operation op (id, _, isLeader) =>
    isDuplicate x.server.kv.lastRequest op = false → isLeader = true → x.delivered < id
  | _ => True

instance decidableFresh (x : Meeting) : ∀ a, Decidable (Fresh x a)
  | .operation _ _ => inferInstanceAs (Decidable (_ → _ → _))
  | .loop | .turn | .wake _ | .handlerDone | .apply _ | .refreshRaftTerm _ => .isTrue trivial

/-- The handlers that are registered and have not begun to clean up. -/
def enrolled (x : Server) : List Handler :=
  match x.mu with
  | .loop h | .turn h => x.waiting ++ [h]
  | .free | .sending _ _ _ => x.waiting

/-- The handlers that have not finished to clean up. -/
def unfinished (x : Server) : List Handler := x.waiting ++ x.mu.handler.toList

def countFor (l : List Handler) (id : ℤ) : ℕ := l.countP (fun h => h.id = id)

def Counted (x : Server) : Prop :=
  ∀ id, x.kv.nWaitingHandlers id = (countFor (enrolled x) id : ℤ)

structure Matched (x : Meeting) : Prop where
  registered : Counted x.server
  receives : x.server.receives =
    countFor (unfinished x.server) x.server.kv.lastApplyMsg.commandIndex
  sending : ∀ h value err, x.server.mu = .sending h value err →
    h.id = x.server.kv.lastApplyMsg.commandIndex
  applied : x.server.kv.lastApplyMsg.commandIndex = x.applied
  delivered : x.applied ≤ x.delivered
  command : 0 < x.server.receives → x.server.kv.lastApplyMsg.command ≠ none
  called : ∀ h ∈ x.server.waiting, h.id = x.server.kv.lastApplyMsg.commandIndex → h ∈ x.called

theorem matched_start : Matched start where
  registered _ := rfl
  receives := rfl
  sending h value err hh := by simp [start, launch] at hh
  applied := rfl
  delivered := le_rfl
  command h := by simp [start, launch] at h
  called h hh := by simp [start, launch] at hh

theorem count_for_append (l : List Handler) (h : Handler) (id : ℤ) :
    countFor (l ++ [h]) id = countFor l id + if h.id = id then 1 else 0 := by
  simp [countFor, List.countP_append, List.countP_singleton]

theorem count_for_erase (l : List Handler) (i : ℕ) (h : Handler) (hi : l[i]? = some h) (id : ℤ) :
    countFor (l.eraseIdx i ++ [h]) id = countFor l id := by
  obtain ⟨hlt,rfl⟩ := List.getElem?_eq_some_iff.mp hi
  exact ((List.perm_append_singleton _ _).trans (List.getElem_cons_eraseIdx_perm hlt)).countP_eq _

theorem count_pos (l : List Handler) (id : ℤ) : 0 < countFor l id ↔ ∃ h ∈ l, h.id = id := by
  simp [countFor, List.countP_pos_iff]

/-- What the apply loop takes from the server and leaves to it. -/
theorem apply_cases (decode : Bytes → Option (Requests × Values)) (kv kv' : KVServer)
    (m : ApplyMsg Op) (n : ℤ) (h : apply decode kv m = .ok (kv', n)) :
    kv'.nWaitingHandlers = kv.nWaitingHandlers ∧
      (m.commandValid = true ∧ kv'.lastApplyMsg = m ∧ m.command ≠ none ∧
          n = kv.nWaitingHandlers m.commandIndex ∨
        m.commandValid = false ∧ kv'.lastApplyMsg = kv.lastApplyMsg ∧ n = 0) := by
  rw [apply] at h
  split_ifs at h with hcommand hsnapshot hnew
  · rw [bind_ok] at h
    obtain ⟨kv1,h1,h⟩ := h
    obtain ⟨rfl,rfl⟩ := Prod.mk.inj (Except.ok.inj h)
    rw [setState] at h1
    split_ifs at h1
    · obtain rfl := Except.ok.inj h1
      exact ⟨rfl,Or.inr ⟨hcommand,rfl,rfl⟩⟩
    · split at h1
      · cases h1
      · obtain rfl := Except.ok.inj h1
        exact ⟨rfl,Or.inr ⟨hcommand,rfl,rfl⟩⟩
  · obtain ⟨rfl,rfl⟩ := Prod.mk.inj (Except.ok.inj h)
    exact ⟨rfl,Or.inr ⟨hcommand,rfl,rfl⟩⟩
  · rw [bind_ok] at h
    obtain ⟨kv1,h1,h⟩ := h
    obtain ⟨rfl,rfl⟩ := Prod.mk.inj (Except.ok.inj h)
    rw [executeIfNew] at h1
    split at h1
    · cases h1
    · rename_i op hop
      have hsome : m.command ≠ none := by
        rw [hop]
        exact Option.some_ne_none op
      split_ifs at h1
      · obtain rfl := Except.ok.inj h1
        exact ⟨rfl,Or.inl ⟨by simpa using hcommand,rfl,hsome,rfl⟩⟩
      · rw [bind_ok] at h1
        obtain ⟨r,-,h1⟩ := h1
        obtain rfl := Except.ok.inj h1
        exact ⟨rfl,Or.inl ⟨by simpa using hcommand,rfl,hsome,rfl⟩⟩

/-- A handler that registers is counted from then on. -/
theorem registered_count {kv : KVServer} {waiting : List Handler}
    (h : ∀ id, kv.nWaitingHandlers id = (countFor waiting id : ℤ)) (own : Handler) (id : ℤ) :
    (registered kv own.id).nWaitingHandlers id = (countFor (waiting ++ [own]) id : ℤ) := by
  show Function.update kv.nWaitingHandlers own.id _ id = _
  rw [count_for_append]
  by_cases hc : id = own.id
  · subst hc
    rw [Function.update_self, h]
    simp
  · rw [Function.update_of_ne hc, h]
    simp [Ne.symm hc]

/-- A handler that has had its turn is no longer counted. -/
theorem deregistered_count {kv : KVServer} {waiting : List Handler} {own : Handler}
    (h : ∀ id, kv.nWaitingHandlers id = (countFor (waiting ++ [own]) id : ℤ)) (id : ℤ) :
    (deregistered kv own.id).nWaitingHandlers id = (countFor waiting id : ℤ) := by
  have hid := h id
  rw [count_for_append] at hid
  show Function.update kv.nWaitingHandlers own.id _ id = _
  by_cases hc : id = own.id
  · subst hc
    rw [Function.update_self, hid]
    simp
  · rw [Function.update_of_ne hc, hid]
    simp [Ne.symm hc]

/-- The counts of the server are those of its handlers. -/
theorem counted_step (decode : Bytes → Option (Requests × Values)) (x x' : Server) (a : Action)
    (r : Option Reply) (hx : Counted x) (h : Acted decode x a x' r) : Counted x' := by
  obtain ⟨kv,mu,waiting,receives⟩ := x
  cases h with
  | answered op started value err hmu ho => exact hx
  | registers op id t hmu hnew hidle =>
    simp only at hmu
    subst hmu
    exact registered_count hx ⟨op,id,t⟩
  | waits own hmu hk =>
    simp only at hmu
    subst hmu
    exact hx
  | leaves own hmu hk =>
    simp only at hmu
    subst hmu
    exact hx
  | sends own value err hmu ht hid =>
    simp only at hmu
    subst hmu
    exact deregistered_count hx
  | returns own value err hmu ht hid =>
    simp only at hmu
    subst hmu
    exact deregistered_count hx
  | wakes i own hmu hi =>
    simp only at hmu hi
    subst hmu
    intro id
    show kv.nWaitingHandlers id = (countFor (waiting.eraseIdx i ++ [own]) id : ℤ)
    rw [count_for_erase waiting i own hi]
    exact hx id
  | received own value err hmu hr =>
    simp only at hmu
    subst hmu
    exact hx
  | applies m kv' n hmu hr ha =>
    simp only at hmu
    subst hmu
    have hn := (apply_cases decode kv kv' m n ha).1
    exact fun id => (congrFun hn id).trans (hx id)
  | refreshes term => exact hx

section
variable {decode : Bytes → Option (Requests × Values)} {x x' : Meeting}

theorem step_cases (a : Action) (h : step decode x a = some x') :
    ∃ r, Acted decode x.server a x'.server r ∧ x'.delivered = deliveredBy x.delivered a ∧
      x'.applied = appliedBy x.applied a ∧
      x'.called = calledBy x.server x'.server x.called a := by
  rw [step, Option.map_eq_some_iff] at h
  obtain ⟨⟨server,r⟩,h,rfl⟩ := h
  exact ⟨r,step_acted decode _ _ _ _ h,rfl,rfl,rfl⟩

theorem matched_step (x : Meeting) (a : Action) (x' : Meeting) (hx : Matched x) (hf : Fresh x a)
    (h : step decode x a = some x') : Matched x' := by
  obtain ⟨r,hacted,hd,ha,hcalled⟩ := step_cases a h
  have hcounted := counted_step decode _ _ a r hx.registered hacted
  obtain ⟨⟨kv,mu,waiting,receives⟩,delivered,applied,called⟩ := x
  obtain ⟨server',delivered',applied',called'⟩ := x'
  obtain ⟨h1,h2,h3,h4,h5,h6,h7⟩ := hx
  simp only at h1 h2 h3 h4 h5 h6 h7 hacted hd ha hcalled hcounted
  subst hd ha hcalled
  cases hacted with
  | answered op started value err hmu ho => exact ⟨hcounted,h2,h3,h4,h5,h6,h7⟩
  | registers op id t hmu hnew hidle =>
    simp only at hmu
    subst hmu
    have hid : kv.lastApplyMsg.commandIndex < id := by
      have := hf hnew rfl
      simp only at this
      omega
    refine ⟨hcounted,?_,fun _ _ _ hc => by simp at hc,h4,h5,h6,h7⟩
    show receives = countFor (waiting ++ [_]) kv.lastApplyMsg.commandIndex
    have hw : receives = countFor (waiting ++ []) kv.lastApplyMsg.commandIndex := h2
    rw [count_for_append, if_neg (by simp only; omega), hw, List.append_nil]
    rfl
  | waits own hmu hk =>
    simp only at hmu
    subst hmu
    have hlater : kv.lastApplyMsg.commandIndex < own.id := by
      simp only [keepsWaiting, decide_eq_true_eq] at hk
      exact hk.2
    refine ⟨hcounted,?_,fun _ _ _ hc => by simp at hc,h4,h5,h6,fun d hd hid => ?_⟩
    · show receives = countFor ((waiting ++ [own]) ++ []) kv.lastApplyMsg.commandIndex
      rw [List.append_nil]
      exact h2
    · have hne : own ≠ d := by
        rintro rfl
        simp only at hid
        omega
      have hmem : d ∈ waiting := by
        rcases List.mem_append.mp hd with hd | hd
        · exact hd
        · exact absurd (List.mem_singleton.mp hd).symm hne
      exact List.mem_filter.mpr ⟨h7 d hmem hid,by simpa [Mutex.handler] using hne⟩
  | leaves own hmu hk =>
    simp only at hmu
    subst hmu
    exact ⟨hcounted,h2,fun _ _ _ hc => by simp at hc,h4,h5,h6,h7⟩
  | sends own value err hmu ht hid =>
    simp only at hmu hid
    subst hmu
    refine ⟨hcounted,h2,fun d v e hc => ?_,h4,h5,h6,h7⟩
    obtain ⟨rfl,-,-⟩ := Mutex.sending.inj hc
    exact hid.symm
  | returns own value err hmu ht hid =>
    simp only at hmu hid
    subst hmu
    refine ⟨hcounted,?_,fun _ _ _ hc => by simp at hc,h4,h5,h6,h7⟩
    show receives = countFor (waiting ++ []) kv.lastApplyMsg.commandIndex
    have hw : receives = countFor (waiting ++ [own]) kv.lastApplyMsg.commandIndex := h2
    rw [hw, count_for_append, if_neg (Ne.symm hid), List.append_nil]
    rfl
  | wakes i own hmu hi =>
    simp only at hmu hi
    subst hmu
    refine ⟨hcounted,?_,fun _ _ _ hc => by simp at hc,h4,h5,h6,
      fun d hd => h7 d (List.mem_of_mem_eraseIdx hd)⟩
    show receives = countFor (waiting.eraseIdx i ++ [own]) kv.lastApplyMsg.commandIndex
    have hw : receives = countFor (waiting ++ []) kv.lastApplyMsg.commandIndex := h2
    rw [count_for_erase waiting i own hi, hw, List.append_nil]
  | received own value err hmu hr =>
    simp only at hmu
    subst hmu
    refine ⟨hcounted,?_,fun _ _ _ hc => by simp at hc,h4,h5,fun hpos => h6 hr,h7⟩
    show receives - 1 = countFor (waiting ++ []) kv.lastApplyMsg.commandIndex
    have hw : receives = countFor (waiting ++ [own]) kv.lastApplyMsg.commandIndex := h2
    rw [count_for_append, if_pos (h3 own value err rfl)] at hw
    rw [List.append_nil]
    omega
  | applies m kv' n hmu hr ha =>
    simp only at hmu hr ha
    subst hmu
    rcases (apply_cases decode kv kv' m n ha).2 with ⟨hc,hmsg,hcom,rfl⟩ | ⟨hc,hmsg,rfl⟩
    · have hcount : (kv.nWaitingHandlers m.commandIndex).toNat =
          countFor waiting m.commandIndex := by
        rw [h1 m.commandIndex, Int.toNat_natCast]
        rfl
      refine ⟨hcounted,?_,fun _ _ _ hc => by simp at hc,?_,?_,
        fun _ => hmsg ▸ hcom,fun d hd hid => ?_⟩
      · show _ = countFor (waiting ++ []) kv'.lastApplyMsg.commandIndex
        rw [hmsg, List.append_nil]
        exact hcount
      · show kv'.lastApplyMsg.commandIndex = appliedBy applied (.apply m)
        rw [hmsg, appliedBy, if_pos hc]
      · show appliedBy applied (.apply m) ≤ deliveredBy delivered (.apply m)
        rw [appliedBy, deliveredBy, if_pos hc, if_pos hc]
        exact le_max_right _ _
      · have hpos : 0 < countFor waiting m.commandIndex :=
          (count_pos waiting m.commandIndex).mpr ⟨d,hd,by rw [← hmsg]; exact hid⟩
        show d ∈ calledBy _ _ called (.apply m)
        rw [calledBy, if_neg (by rw [← hcount] at hpos; exact hpos.ne')]
        exact hd
    · have hno : ¬ m.commandValid = true := by
        rw [hc]
        exact Bool.false_ne_true
      refine ⟨hcounted,?_,fun _ _ _ hc => by simp at hc,?_,?_,
        fun hpos => by simp at hpos,fun d hd hid => ?_⟩
      · show 0 = countFor (waiting ++ []) kv'.lastApplyMsg.commandIndex
        rw [hmsg, ← hr]
        exact h2
      · show kv'.lastApplyMsg.commandIndex = appliedBy applied (.apply m)
        rw [hmsg, appliedBy, if_neg hno]
        exact h4
      · show appliedBy applied (.apply m) ≤ deliveredBy delivered (.apply m)
        rw [appliedBy, deliveredBy, if_neg hno]
        exact h5.trans (le_max_left _ _)
      · exact h7 d hd (by rw [← hmsg]; exact hid)
  | refreshes term => exact ⟨hcounted,h2,h3,h4,h5,h6,h7⟩

theorem matched_reached (as : List Action) (x : Meeting)
    (hm : Meets (step decode) Fresh start as) (h : exec (step decode) start as = some x) :
    Matched x :=
  exec_invariant (step decode) Fresh Matched matched_step as start x matched_start hm h

/-- The moves of handlers that are registered already. Only a handler that was
called wakes up. -/
def Leaving (x : Meeting) : Action → Prop
  | .loop | .turn | .handlerDone => True
  | .wake i => ∃ h ∈ x.called, x.server.waiting[i]? = some h
  | .operation _ _ | .apply _ | .refreshRaftTerm _ => False

theorem leaving_fresh (x : Meeting) (a : Action) (h : Leaving x a) : Fresh x a := by
  cases a with
  | operation => exact absurd h id
  | loop | turn | wake | handlerDone | apply | refreshRaftTerm => exact trivial

variable (decode) in
/-- Handlers that are registered can make the apply loop receive once more. -/
def Releases (x : Meeting) : Prop :=
  ∃ as x', Meets (step decode) Leaving x as ∧ exec (step decode) x as = some x' ∧
    x'.server.receives < x.server.receives

theorem releases_step (a : Action) (ha : Leaving x a) (h : step decode x a = some x')
    (hr : x'.server.receives = x.server.receives) (hx : Releases decode x') :
    Releases decode x := by
  obtain ⟨as,y,has,hexec,hlt⟩ := hx
  refine ⟨a::as,y,⟨ha,fun u hu => ?_⟩,by rw [exec, h]; exact hexec,by omega⟩
  obtain rfl := Option.some.inj (h.symm.trans hu)
  exact has

variable (decode) in
/-- A send meets a receive. -/
theorem sending_received (hx : Matched x) (h : Handler) (value : String) (err : Err)
    (hmu : x.server.mu = .sending h value err) :
    ∃ x', step decode x .handlerDone = some x' ∧
      x'.server.receives < x.server.receives := by
  have hpos : 0 < x.server.receives := by
    rw [hx.receives, count_pos]
    exact ⟨h,by simp [unfinished, hmu, Mutex.handler],hx.sending h value err hmu⟩
  have hstep : step decode x .handlerDone = some { x with
      server := { x.server with mu := .free, receives := x.server.receives - 1 } } := by
    simp [step, KvHandlers.step, hmu, hpos, deliveredBy, appliedBy, calledBy]
  exact ⟨_,hstep,by simp only; omega⟩

theorem turn_reads (kv : KVServer) (op : Op) (t : ℕ) (h : kv.lastApplyMsg.command ≠ none) :
    ∃ value err, handlersTurn kv op t = .ok (value, err) := by
  rw [handlersTurn]
  split_ifs
  · exact ⟨_,_,rfl⟩
  · split
    · contradiction
    · split_ifs <;> exact ⟨_,_,rfl⟩

theorem turn_moves (h : Handler) (hmu : x.server.mu = .turn h)
    (hcommand : x.server.kv.lastApplyMsg.command ≠ none) :
    ∃ x', step decode x .turn = some x' ∧ x'.server.receives = x.server.receives ∧
      ((∃ value err, x'.server.mu = .sending h value err) ∨
        x.server.kv.lastApplyMsg.commandIndex ≠ h.id ∧ x'.server.mu = .free) := by
  obtain ⟨value,err,ht⟩ := turn_reads x.server.kv h.op h.term hcommand
  by_cases hid : x.server.kv.lastApplyMsg.commandIndex = h.id
  · refine ⟨_,by simp [step, KvHandlers.step, hmu, ht, cleanupHandler, hid]; rfl,?_,?_⟩
    · rfl
    · exact Or.inl ⟨value,err,rfl⟩
  · refine ⟨_,by simp [step, KvHandlers.step, hmu, ht, cleanupHandler, hid]; rfl,?_,?_⟩
    · rfl
    · exact Or.inr ⟨hid,rfl⟩

theorem sending_release (hx : Matched x) (h : Handler) (value : String) (err : Err)
    (hmu : x.server.mu = .sending h value err) : Releases decode x := by
  obtain ⟨x',hstep,hlt⟩ := sending_received decode hx h value err hmu
  exact ⟨[.handlerDone],x',⟨trivial,fun _ _ => trivial⟩,by rw [exec, hstep]; rfl,hlt⟩

theorem turn_release (hx : Matched x) (h : Handler) (hmu : x.server.mu = .turn h)
    (hr : 0 < x.server.receives)
    (hfree : ∀ u, Matched u → 0 < u.server.receives → u.server.mu = .free →
      x.server.kv.lastApplyMsg.commandIndex ≠ h.id → Releases decode u) :
    Releases decode x := by
  obtain ⟨x',hstep,hsame,hcase⟩ := turn_moves h hmu (hx.command hr)
  have hx' := matched_step x .turn x' hx trivial hstep
  rcases hcase with ⟨value,err,hmu'⟩ | ⟨hid,hmu'⟩
  · exact releases_step .turn trivial hstep hsame (sending_release hx' h value err hmu')
  · exact releases_step .turn trivial hstep hsame (hfree x' hx' (by omega) hmu' hid)

/-- A handler of the index was called, and does not wait again. -/
theorem free_release (hx : Matched x) (hmu : x.server.mu = .free) (hr : 0 < x.server.receives) :
    Releases decode x := by
  have hcount := hx.receives
  rw [unfinished, hmu] at hcount
  obtain ⟨h,hmem,hid⟩ := (count_pos _ _).mp (hcount ▸ hr)
  have hwaits : h ∈ x.server.waiting := by simpa [Mutex.handler] using hmem
  obtain ⟨i,hi⟩ := List.mem_iff_getElem?.mp hwaits
  have hwake : step decode x (.wake i) = some { x with
      server := { x.server with mu := .loop h, waiting := x.server.waiting.eraseIdx i } } := by
    simp [step, KvHandlers.step, hmu, hi, deliveredBy, appliedBy, calledBy]
  have hx1 := matched_step x (.wake i) _ hx trivial hwake
  have hleave : keepsWaiting x.server.kv h.id h.term = false := by
    simp [keepsWaiting, hid]
  have hloop : step decode { x with
      server := { x.server with mu := .loop h, waiting := x.server.waiting.eraseIdx i } } .loop =
      some { x with
        server := { x.server with mu := .turn h, waiting := x.server.waiting.eraseIdx i } } := by
    simp [step, KvHandlers.step, hleave, deliveredBy, appliedBy, calledBy]
  have hx2 := matched_step _ .loop _ hx1 trivial hloop
  apply releases_step (.wake i) ⟨h,hx.called h hwaits hid,hi⟩ hwake rfl
  apply releases_step .loop trivial hloop rfl
  exact turn_release hx2 h rfl hr (fun _ _ _ _ hne => absurd hid.symm hne)

theorem loop_release (hx : Matched x) (h : Handler) (hmu : x.server.mu = .loop h)
    (hr : 0 < x.server.receives) : Releases decode x := by
  obtain ⟨x',hstep,hsame,hmu'⟩ : ∃ x', step decode x .loop = some x' ∧
      x'.server.receives = x.server.receives ∧
      (x'.server.mu = .free ∨ x'.server.mu = .turn h) := by
    cases hk : keepsWaiting x.server.kv h.id h.term with
    | true =>
      refine ⟨_,by simp [step, KvHandlers.step, hmu, hk]; rfl,?_,?_⟩
      · rfl
      · exact Or.inl rfl
    | false =>
      refine ⟨_,by simp [step, KvHandlers.step, hmu, hk]; rfl,?_,?_⟩
      · rfl
      · exact Or.inr rfl
  have hx' := matched_step x .loop x' hx trivial hstep
  apply releases_step .loop trivial hstep hsame
  rcases hmu' with hfree | hturn
  · exact free_release hx' hfree (by omega)
  · exact turn_release hx' h hturn (by omega) (fun u hu hru hfu _ => free_release hu hfu hru)

variable (decode) in
theorem release (hx : Matched x) (hr : 0 < x.server.receives) : Releases decode x := by
  cases hmu : x.server.mu with
  | free => exact free_release hx hmu hr
  | loop h => exact loop_release hx h hmu hr
  | turn h => exact turn_release hx h hmu hr (fun u hu hru hfu _ => free_release hu hfu hru)
  | sending h value err => exact sending_release hx h value err hmu

variable (decode) in
/-- The registered handlers alone can end the receives of the apply loop. -/
theorem released (r : ℕ) (x : Meeting) (hx : Matched x) (hr : x.server.receives = r) :
    ∃ as x', Meets (step decode) Leaving x as ∧ exec (step decode) x as = some x' ∧
      x'.server.receives = 0 := by
  induction r using Nat.strong_induction_on generalizing x with
  | h r ih =>
    rcases Nat.eq_zero_or_pos r with rfl | hpos
    · exact ⟨[],x,trivial,rfl,hr⟩
    · obtain ⟨as,y,has,hexec,hlt⟩ := release decode hx (by omega)
      have hy := exec_invariant (step decode) Leaving Matched
        (fun u a v hu ha hv => matched_step u a v hu (leaving_fresh u a ha) hv) as x y hx has hexec
      obtain ⟨as',z,has',hexec',hz⟩ := ih y.server.receives (by omega) y hy rfl
      refine ⟨as ++ as',z,?_,?_,hz⟩
      · rw [meets_append]
        refine ⟨has,fun u hu => ?_⟩
        obtain rfl := Option.some.inj (hexec.symm.trans hu)
        exact has'
      · rw [exec_append, hexec]
        exact hexec'

end

/-- In every state that an interleaving reaches in which `Start` returned
indices beyond all that was delivered: while the apply loop receives for the
command that it took last, the number of receives is that of the handlers for
its index that have not finished to clean up; otherwise there is no such
handler. So a handler that sends is received, the handlers can end the
receives, and no count of handlers is negative. -/
theorem rendezvous (decode : Bytes → Option (Requests × Values)) (as : List Action) (x : Meeting)
    (hm : Meets (step decode) Fresh start as) (h : exec (step decode) start as = some x) :
    (0 < x.server.receives → x.server.kv.lastApplyMsg.commandIndex = x.applied ∧
      ((unfinished x.server).filter (fun h => h.id = x.applied)).length = x.server.receives) ∧
    (x.server.receives = 0 → ∀ h ∈ unfinished x.server,
      h.id ≠ x.server.kv.lastApplyMsg.commandIndex) ∧
    (∀ h value err, x.server.mu = .sending h value err →
      ∃ x', step decode x .handlerDone = some x') ∧
    (∃ as' x', Meets (step decode) Leaving x as' ∧ exec (step decode) x as' = some x' ∧
      x'.server.receives = 0) ∧
    ∀ id, 0 ≤ x.server.kv.nWaitingHandlers id := by
  have hx := matched_reached as x hm h
  refine ⟨fun _ => ⟨hx.applied,?_⟩,?_,?_,released decode _ x hx rfl,?_⟩
  · rw [hx.receives, hx.applied, countFor, List.countP_eq_length_filter]
  · intro hzero h hmem hid
    have hpos := (count_pos (unfinished x.server) x.server.kv.lastApplyMsg.commandIndex).mpr
      ⟨h,hmem,hid⟩
    rw [← hx.receives] at hpos
    omega
  · intro h value err hmu
    obtain ⟨x',hstep,-⟩ := sending_received decode hx h value err hmu
    exact ⟨x',hstep⟩
  · intro id
    rw [hx.registered id]
    exact Int.natCast_nonneg _

/-- Two clients wait for the indices one and two. The first command is applied,
and its handler has its turn after the other one was woken in vain. -/
def firstApplied : List Action :=
  [.refreshRaftTerm 1, .operation ⟨.put,["k", "a"],1,0⟩ (1,1,true), .loop,
    .operation ⟨.put,["k", "b"],2,0⟩ (2,1,true), .loop,
    .apply { commandValid := true, command := some ⟨.put,["k", "a"],1,0⟩, commandIndex := 1 },
    .wake 1, .loop, .wake 0, .loop, .turn]

theorem rendezvous_first_applied : ∃ x,
    exec (step (fun _ => none)) start firstApplied = some x ∧ x.server.receives = 1 ∧
    x.server.kv.lastApplyMsg.commandIndex = x.applied ∧
    ((unfinished x.server).filter (fun h => h.id = x.applied)).length = 1 ∧
    ∃ x', step (fun _ => none) x .handlerDone = some x' := by
  have h := rendezvous (fun _ => none) firstApplied _ (by decide +kernel) rfl
  obtain ⟨h1,-,h3,-⟩ := h
  obtain ⟨h4,h5⟩ := h1 (by decide +kernel)
  exact ⟨_,rfl,by decide +kernel,h4,h5.trans (by decide +kernel),h3 _ _ _ rfl⟩

end Mitdist.Rendezvous
