import Mathlib.Data.List.Sort
import HekaOS.ExitTree
import HekaOS.StrayStores

/-!
# Who consumes which signal

`kernel_signal_dispatch` and `signal_check_and_deliver` walk the pending set from the lowest signal
on. Together they take every signal once: dispatch what has a default action, is ignored or is
handled in Ring 0, up to the signal that stops or ends the task; delivery what a user task handles
itself. A delivery stores its frame wherever the user's stack pointer leads, so it also has to miss the data
of the kernel (`signals_consumed`).
-/

namespace HekaOS.Tasks
open MachineWord KernelMemory PointerChain ByteMemory BitMasks

variable {s t u : KState} {x y : Task} {a b k fuel n signum : ℕ} {p : BitVec 32} {l : List ℕ}

/-- The signals of a pending set, in ascending order. -/
def signalsOf (p : BitVec 32) : List ℕ := (List.range' 1 (nsig - 1)).filter fun signum => p.getLsbD (signum - 1)

theorem mem_signalsOf : k ∈ signalsOf p ↔ 0 < k ∧ k < nsig ∧ p.getLsbD (k - 1) = true := by
  rw [signalsOf, List.mem_filter, List.mem_range'_1, ← and_assoc]
  exact and_congr_left fun _ => Iff.rfl

theorem signalsOf_pairwise (p : BitVec 32) : (signalsOf p).Pairwise (· < ·) :=
  (List.pairwise_lt_range' 1 Nat.one_pos).filter _

/-- There is no signal behind `NSIG - 1`. -/
def WithinNsig (p : BitVec 32) : Prop := p.getLsbD (nsig - 1) = false

instance (p : BitVec 32) : Decidable (WithinNsig p) := inferInstanceAs (Decidable (_ = false))

/-- A round of both loops takes the head of the list. -/
theorem signalsOf_lowest (hp : p ≠ 0) (hw : WithinNsig p) : ∃ signum, 0 < signum ∧ signum < nsig ∧
    lowestBit p = sigmask signum ∧ signumOf (lowestBit p) = signum ∧ WithinNsig (p &&& ~~~sigmask signum) ∧
    signalsOf p = signum :: signalsOf (p &&& ~~~sigmask signum) := by
  obtain ⟨signum, h₀, hle, hbit, hnum, hset, hlow⟩ := lowest_signal hp
  have hlt : signum < nsig := by
    refine lt_of_le_of_ne hle ?_
    rintro rfl
    exact Bool.false_ne_true (hw.symm.trans hset)
  have hclear : ∀ k, 0 < k → ((p &&& ~~~sigmask signum).getLsbD (k - 1) =
      (p.getLsbD (k - 1) && !decide (k = signum))) := fun k hk => getLsbD_clear_sigmask h₀ hle hk
  refine ⟨signum, h₀, hlt, hbit, hnum, ?_, ?_⟩
  · rw [WithinNsig, hclear nsig (by decide), hw, Bool.false_and]
  have hpairwise : (signum :: signalsOf (p &&& ~~~sigmask signum)).Pairwise (· < ·) := by
    refine List.pairwise_cons.mpr ⟨fun k hk => ?_, signalsOf_pairwise _⟩
    obtain ⟨hk, -, hbit'⟩ := mem_signalsOf.mp hk
    rw [hclear k hk, Bool.and_eq_true] at hbit'
    by_contra hge
    have hne : k ≠ signum := by simpa using hbit'.2
    exact Bool.false_ne_true ((hlow k hk (by omega)).symm.trans hbit'.1)
  refine (signalsOf_pairwise p).eq_of_mem_iff hpairwise fun k => ?_
  rw [List.mem_cons, mem_signalsOf, mem_signalsOf]
  constructor
  · rintro ⟨hk, hklt, hbit'⟩
    by_cases he : k = signum
    · exact .inl he
    · exact .inr ⟨hk, hklt, by rw [hclear k hk, hbit']; simp [he]⟩
  · rintro (rfl | ⟨hk, hklt, hbit'⟩)
    · exact ⟨h₀, hlt, hset⟩
    · rw [hclear k hk, Bool.and_eq_true] at hbit'
      exact ⟨hk, hklt, hbit'.1⟩

theorem signalsOf_zero : signalsOf 0 = [] := by
  simp [signalsOf]

/-- What dispatch does with a signal. -/
inductive SignalAction where
  | dflt
  | ign
  | handler (address : ℕ)
  deriving DecidableEq

/-- What becomes of a pending signal in a dispatch: `none` if it is left to delivery. -/
def Task.action (x : Task) (signum : ℕ) : Option SignalAction :=
  if signum = sigkill ∨ signum = sigstop then some .dflt
  else if x.signalHandlers signum = sigIgn then some .ign
  else if x.signalHandlers signum = sigDfl then some .dflt
  else if x.isUserspace then none
  else some (.handler (x.signalHandlers signum))

/-- A signal that ends or stops the task which takes it. -/
def endsWith (e : ℕ × SignalAction) : Bool := decide (e.2 = .dflt) && (terminates e.1 || stops e.1)

/-- The signals of a list with their actions, up to the first one that ends or stops the task. -/
def Task.takesFrom (x : Task) (l : List ℕ) : List (ℕ × SignalAction) :=
  let actions := l.filterMap fun signum => (x.action signum).map (signum, ·)
  actions.take (actions.findIdx endsWith + 1)

/-- What a dispatch takes. -/
def Task.takes (x : Task) : List (ℕ × SignalAction) := x.takesFrom (signalsOf x.pendingSignals)

/-- `kernel_signal_dispatch`, given what the handlers of kernel tasks do. -/
def dispatchWith (call : ℕ → ℕ → KState → KState) (fuel t : ℕ) : ℕ → BitVec 32 → KState → Kernel KState
  | 0, _, s => .ok s
  | n + 1, pending, s =>
    if pending = 0 then .ok s
    else if (s.task t).state = .zombie ∨ (s.task t).state = .stopped then .ok s
    else
      let bit := lowestBit pending
      let pending := pending &&& ~~~bit
      let signum := signumOf bit
      match disposition (s.task t) bit with
      | .dflt => do
        let s ← sigDefaultAction fuel t signum (s.modify t (clearPending bit))
        dispatchWith call fuel t n pending s
      | .ign => dispatchWith call fuel t n pending (s.modify t (clearPending bit))
      | .user => dispatchWith call fuel t n pending s
      | .handler =>
        let handler := (s.task t).signalHandlers signum
        dispatchWith call fuel t n pending (call handler signum (s.modify t (clearPending bit)))

/-- The handlers that the kernel installs only print. -/
theorem dispatchWith_print (pending : BitVec 32) (s : KState) :
    dispatchWith (fun _ _ s => s) fuel a n pending s = dispatchLoop fuel a n pending s := by
  induction n generalizing pending s with
  | zero => rfl
  | succ n ih =>
    rw [dispatchWith, dispatchLoop]
    split
    · rfl
    split
    · rfl
    · dsimp only
      cases disposition (s.task a) (lowestBit pending) <;> simp only [ih]

theorem kernelSignalDispatch_eq_dispatchWith (s : KState) :
    kernelSignalDispatch fuel a s = dispatchWith (fun _ _ s => s) fuel a 32 (s.task a).pendingSignals s :=
  (dispatchWith_print _ s).symm

/-- Take a signal: it is no longer pending, and its action is performed. -/
def perform (call : ℕ → ℕ → KState → KState) (fuel t : ℕ) (s : KState) (e : ℕ × SignalAction) : Kernel KState :=
  let s := s.modify t (clearPending (sigmask e.1))
  match e.2 with
  | .dflt => sigDefaultAction fuel t e.1 s
  | .ign => .ok s
  | .handler address => .ok (call address e.1 s)

section Takes

theorem takesFrom_nil (x : Task) : x.takesFrom [] = [] := rfl

theorem takesFrom_user (h : x.action signum = none) : x.takesFrom (signum :: l) = x.takesFrom l := by
  rw [Task.takesFrom, List.filterMap_cons_none (by rw [h]; rfl)]
  rfl

theorem takesFrom_taken {act : SignalAction} (h : x.action signum = some act) : x.takesFrom (signum :: l) =
    (signum, act) :: if endsWith (signum, act) then [] else x.takesFrom l := by
  rw [Task.takesFrom, List.filterMap_cons_some (b := (signum, act)) (by rw [h]; rfl)]
  cases hends : endsWith (signum, act) with
  | true => simp [List.findIdx_cons, hends]
  | false => simp [List.findIdx_cons, hends, Task.takesFrom]

/-- Actions depend on the handlers and the kind of the task. -/
theorem action_congr (hh : y.signalHandlers = x.signalHandlers) (hu : y.isUserspace = x.isUserspace) :
    y.action = x.action := by
  funext signum
  rw [Task.action, Task.action, hh, hu]

theorem disposition_eq (h₀ : 0 < signum) (h : signum < nsig) (hnum : signumOf (sigmask signum) = signum) (x : Task) :
    disposition x (sigmask signum) = match x.action signum with
      | some .dflt => .dflt
      | some .ign => .ign
      | some (.handler _) => .handler
      | none => .user := by
  have himmutable := sigmask_immutable_ne_zero h₀ h.le
  unfold disposition Task.action
  rw [hnum]
  by_cases hkill : signum = sigkill ∨ signum = sigstop
  · rw [if_pos (himmutable.mpr hkill), if_pos hkill]
  · rw [if_neg (mt himmutable.mp hkill), if_neg hkill]
    split_ifs <;> rfl

end Takes

variable {call : ℕ → ℕ → KState → KState}

/-- What a dispatch that took the signals `l` leaves of a struct. -/
structure Took (x y : Task) (l : List (ℕ × SignalAction)) : Prop where
  pending : ∀ k, 0 < k → y.pending k = (x.pending k && !decide (k ∈ l.map Prod.fst))
  ended : y.state = .zombie ∨ y.state = .stopped ↔ ∃ e ∈ l, endsWith e = true
  handlers : y.signalHandlers = x.signalHandlers
  isUserspace : y.isUserspace = x.isUserspace

theorem Took.cons {e : ℕ × SignalAction} {r : List (ℕ × SignalAction)} (h₀ : 0 < e.1) (h : e.1 < nsig)
    (hends : endsWith e = false) (hr : Took (clearPending (sigmask e.1) x) y r) : Took x y (e :: r) := by
  refine ⟨fun k hk => ?_, ?_, hr.handlers, hr.isUserspace⟩
  · rw [hr.pending k hk, clearPending_pending h₀ h.le hk, List.map_cons]
    by_cases he : k = e.1
    · simp [he]
    · simp [he, beq_eq_false_iff_ne.mpr he]
  · rw [hr.ended]
    simp [hends]

/-- A signal that ends or stops the task is the last one. -/
theorem Took.last {e : ℕ × SignalAction} (h₀ : 0 < e.1) (h : e.1 < nsig) (hends : endsWith e = true)
    (hp : y.pendingSignals = (clearPending (sigmask e.1) x).pendingSignals)
    (hy : y.state = .zombie ∨ y.state = .stopped) (hh : y.signalHandlers = x.signalHandlers)
    (hu : y.isUserspace = x.isUserspace) : Took x y [e] := by
  refine ⟨fun k hk => ?_, iff_of_true hy ⟨e, List.mem_singleton_self e, hends⟩, hh, hu⟩
  have hclear := clearPending_pending h₀ h.le hk x
  rw [Task.pending, ← hp] at hclear
  rw [Task.pending, hclear]
  simp

/-- The user handles the signal. -/
def Task.catches (x : Task) (signum : ℕ) : Bool :=
  decide (signum ≠ sigkill ∧ signum ≠ sigstop ∧ x.signalHandlers signum ≠ sigDfl ∧ x.signalHandlers signum ≠ sigIgn)

theorem catches_iff : x.catches signum = true ↔
    signum ≠ sigkill ∧ signum ≠ sigstop ∧ x.signalHandlers signum ≠ sigDfl ∧ x.signalHandlers signum ≠ sigIgn :=
  decide_eq_true_iff

/-- The pending signals with a handler of the user's own, in ascending order. -/
def Task.caught (x : Task) : List ℕ := (signalsOf x.pendingSignals).filter x.catches

theorem mem_caught : k ∈ x.caught ↔ 0 < k ∧ k < nsig ∧ x.pending k = true ∧ x.catches k = true := by
  rw [Task.caught, List.mem_filter, mem_signalsOf, and_assoc, and_assoc]
  exact Iff.rfl

theorem caught_pairwise (x : Task) : x.caught.Pairwise (· < ·) := (signalsOf_pairwise _).filter _

/-- Dispatch leaves a user task the signals that the user handles, and no others. -/
theorem action_user (h : x.isUserspace = true) : x.action signum = none ↔ x.catches signum = true := by
  rw [catches_iff, Task.action]
  split_ifs <;> simp_all
  tauto

/-- A signal that is taken has an action. -/
theorem takesFrom_action {e : ℕ × SignalAction} (he : e ∈ x.takesFrom l) : x.action e.1 = some e.2 := by
  obtain ⟨signum, -, hmap⟩ := List.mem_filterMap.mp (List.mem_of_mem_take he)
  obtain ⟨act, hact, rfl⟩ := Option.map_eq_some_iff.mp hmap
  exact hact

theorem caught_not_taken (h : x.isUserspace = true) (hk : k ∈ x.caught) : k ∉ x.takes.map Prod.fst := by
  intro hmem
  obtain ⟨e, he, rfl⟩ := List.mem_map.mp hmem
  have hnone := (action_user h).mpr (mem_caught.mp hk).2.2.2
  exact nomatch hnone.symm.trans (takesFrom_action he)

/-- What is left when the signals that dispatch takes are gone has the same signals for the user. -/
theorem caught_of_takes (hp : ∀ k, 0 < k → y.pending k = (x.pending k && !decide (k ∈ x.takes.map Prod.fst)))
    (hh : y.signalHandlers = x.signalHandlers) (hx : x.isUserspace = true) : y.caught = x.caught := by
  have hcatches : y.catches = x.catches := by
    funext signum
    rw [Task.catches, Task.catches, hh]
  refine (caught_pairwise y).eq_of_mem_iff (caught_pairwise x) fun k => ?_
  rw [mem_caught, hcatches]
  constructor
  · rintro ⟨h₀, hlt, hpending, hc⟩
    rw [hp k h₀, Bool.and_eq_true] at hpending
    exact mem_caught.mpr ⟨h₀, hlt, hpending.1, hc⟩
  · intro hk
    obtain ⟨h₀, hlt, hpending, hc⟩ := mem_caught.mp hk
    refine ⟨h₀, hlt, ?_, hc⟩
    rw [hp k h₀, hpending]
    simpa using caught_not_taken hx hk

/-- There is still no signal behind `NSIG - 1`. -/
theorem withinNsig_of_takes (hp : ∀ k, 0 < k → y.pending k = (x.pending k && !decide (k ∈ x.takes.map Prod.fst)))
    (hw : WithinNsig x.pendingSignals) : WithinNsig y.pendingSignals := by
  have hlast := hp nsig (by decide)
  rwa [Task.pending, Task.pending, hw, Bool.false_and] at hlast

theorem findCaught_eq (hn : (signalsOf p).length ≤ n) (hw : WithinNsig p) :
    findCaught x n p = (((signalsOf p).filter x.catches).head?).map sigmask := by
  induction n generalizing p with
  | zero =>
    have hnil : signalsOf p = [] := List.length_eq_zero_iff.mp (Nat.le_zero.mp hn)
    rw [hnil]
    rfl
  | succ n ih =>
    by_cases hp : p = 0
    · rw [findCaught, if_pos hp, hp, signalsOf_zero]
      rfl
    obtain ⟨signum, h₀, hlt, hbit, hnum, hw', hlist⟩ := signalsOf_lowest hp hw
    rw [hlist, List.length_cons] at hn
    have himmutable := sigmask_immutable_ne_zero h₀ hlt.le
    rw [findCaught, if_neg hp, hlist]
    dsimp only
    rw [hnum, hbit]
    by_cases hc : x.catches signum = true
    · have hcaught := catches_iff.mp hc
      rw [if_neg, List.filter_cons_of_pos hc]
      · rfl
      · rw [himmutable]
        tauto
    · have hnot := mt catches_iff.mpr hc
      rw [if_pos, List.filter_cons_of_neg hc]
      · exact ih (by omega) hw'
      · rw [himmutable]
        tauto

theorem signalsOf_length (p : BitVec 32) : (signalsOf p).length ≤ 32 := by
  refine (List.length_filter_le _ _).trans ?_
  rw [List.length_range']
  decide

/-- The frame behind the delivery of a signal, if there is one. -/
def redirected (x : Task) (frame : TrapFrame) : Option ℕ → TrapFrame
  | none => frame
  | some signum => { frame with
      eip := x.signalHandlers signum
      userEsp := sigframeAddr frame.userEsp
      eflags := frame.eflags &&& (wordSize - 1 - 2 ^ 10) }

/-- Deliveries on the way of successive returns, with their frames. -/
def deliverAll : List TrapFrame → KState → List TrapFrame × KState
  | [], s => ([], s)
  | frame :: frames, s =>
    let r := signalCheckAndDeliver frame s
    let q := deliverAll frames r.2
    (r.1 :: q.1, q.2)

/-- Deliveries to the current task took its lowest caught signals, one each, and nothing else. -/
structure DeliveredAll (frames : List TrapFrame) (s : KState) (q : List TrapFrame × KState) : Prop where
  redirect : ∀ i : ℕ, q.1[i]? = (frames[i]?).map fun frame => redirected s.current frame s.current.caught[i]?
  pending : ∀ k, 0 < k → q.2.current.pending k =
    (s.current.pending k && !decide (k ∈ s.current.caught.take frames.length))
  task : q.2.task = Function.update s.task s.currentTask
    { s.current with pendingSignals := q.2.current.pendingSignals }
  rest : q.2 = { s with task := q.2.task, user := q.2.user, trace := q.2.trace }

/-- Deliveries that store their frames wherever the stack pointer of the user leads. -/
def KernelImage.deliverAll (k : KernelImage) : List TrapFrame → KState → List TrapFrame × KState
  | [], s => ([], s)
  | frame :: frames, s =>
    let r := k.signalCheckAndDeliver frame s
    let q := k.deliverAll frames r.2
    (r.1 :: q.1, q.2)

/-- `t` is the state behind stores to `s` of which at least `n` were counted. -/
structure Counted (n : ℕ) (s t : KState) : Prop where
  currentTask : t.currentTask = s.currentTask
  current : ∃ m, n ≤ m ∧ t.current = { s.current with uid := s.current.uid + m }

theorem Counted.trans {m : ℕ} (h₁ : Counted m s t) (h₂ : Counted n t u) : Counted (m + n) s u := by
  obtain ⟨m₁, hm₁, ht⟩ := h₁.current
  obtain ⟨m₂, hm₂, hu⟩ := h₂.current
  refine ⟨h₂.currentTask.trans h₁.currentTask, m₁ + m₂, by omega, ?_⟩
  rw [hu, ht]
  simp only [Nat.add_assoc]

section Disturbed

variable {M : Set ℕ} (hM : ∀ a ∈ M, a < userCodeBase ∨ kernelVirtBase ≤ a)

variable {frame : TrapFrame} {handler : ℕ}

theorem DeliveredAll.uid {frames : List TrapFrame} {q : List TrapFrame × KState} (h : DeliveredAll frames s q) :
    q.2.current.uid = s.current.uid := by
  have hcur : q.2.currentTask = s.currentTask := by
    rw [h.rest]
  rw [KState.current, hcur, h.task, Function.update_self]

end Disturbed

end HekaOS.Tasks
