import HekaOS.Task

/-!
# Acting on pending signals

`kernel_signal_dispatch` drains the pending set of a task, lowest signal first;
`signal_check_and_deliver` pushes a frame for a caught signal on the user's stack before the
return to Ring 3. Draining ends with the first terminating signal, so its effect is a pure
update of the struct followed by at most one `do_exit` (`kernelSignalDispatch_eq`).
-/

namespace HekaOS.Tasks
open MachineWord KernelMemory ByteMemory

/-- `pending & (~pending + 1)` -/
def lowestBit (pending : BitVec 32) : BitVec 32 := pending &&& (~~~pending + 1#32)

/-- The loop that recovers a signal number from its bit. -/
def countShifts : ℕ → BitVec 32 → ℕ → ℕ
  | 0, _, signum => signum
  | fuel + 1, tmp, signum => if tmp = 0 then signum else countShifts fuel (tmp >>> 1) (signum + 1)

def signumOf (bit : BitVec 32) : ℕ := countShifts 32 (bit >>> 1) 1

/-- Signals whose default action terminates. -/
def terminates (signum : ℕ) : Bool :=
  signum ∈ [sighup, sigint, sigquit, sigill, sigabrt, sigbus, sigfpe, sigkill, sigsegv, sigpipe,
    sigalrm, sigterm]

/-- Signals whose default action suspends. -/
def stops (signum : ℕ) : Bool := signum ∈ [sigstop, sigtstp]

def sigDefaultAction (fuel t signum : ℕ) (s : KState) : Kernel KState :=
  if terminates signum then doExit fuel t (128 + signum) s
  else if stops signum then
    if (s.task t).state ≠ .zombie then .ok (s.modify t fun x => { x with state := .stopped })
    else .ok s
  else .ok s

/-- What a round of the dispatch loop does with the lowest pending signal. -/
inductive Disposition where
  | dflt
  | ign
  | user
  | handler
  deriving DecidableEq

def disposition (t : Task) (bit : BitVec 32) : Disposition :=
  if bit &&& sigImmutableMask ≠ 0 then .dflt
  else if t.signalHandlers (signumOf bit) = sigIgn then .ign
  else if t.signalHandlers (signumOf bit) = sigDfl then .dflt
  else if t.isUserspace then .user
  else .handler

def clearPending (bit : BitVec 32) (t : Task) : Task :=
  { t with pendingSignals := t.pendingSignals &&& ~~~bit }

/-- The loop of `kernel_signal_dispatch`. A Ring 0 handler runs to its end on the spot; the
ones the kernel installs only print. -/
def dispatchLoop (fuel t : ℕ) : ℕ → BitVec 32 → KState → Kernel KState
  | 0, _, s => .ok s
  | n + 1, pending, s =>
    if pending = 0 then .ok s
    else if (s.task t).state = .zombie ∨ (s.task t).state = .stopped then .ok s
    else
      let bit := lowestBit pending
      let pending := pending &&& ~~~bit
      match disposition (s.task t) bit with
      | .dflt => do
        let s ← sigDefaultAction fuel t (signumOf bit) (s.modify t (clearPending bit))
        dispatchLoop fuel t n pending s
      | .ign => dispatchLoop fuel t n pending (s.modify t (clearPending bit))
      | .user => dispatchLoop fuel t n pending s
      | .handler => dispatchLoop fuel t n pending (s.modify t (clearPending bit))

/-- A pending set has 32 signals, so the loop makes at most 32 rounds. -/
def kernelSignalDispatch (fuel t : ℕ) (s : KState) : Kernel KState :=
  dispatchLoop fuel t 32 (s.task t).pendingSignals s

/-- The dispatch loop on the struct alone: what it leaves of the struct, and the signal that
terminates the task, if there is one. -/
def drain : ℕ → BitVec 32 → Task → Task × Option ℕ
  | 0, _, t => (t, none)
  | n + 1, pending, t =>
    if pending = 0 then (t, none)
    else if t.state = .zombie ∨ t.state = .stopped then (t, none)
    else
      let bit := lowestBit pending
      let pending := pending &&& ~~~bit
      match disposition t bit with
      | .dflt =>
        let t := clearPending bit t
        if terminates (signumOf bit) then (t, some (signumOf bit))
        else if stops (signumOf bit) then ({ t with state := .stopped }, none)
        else drain n pending t
      | .ign => drain n pending (clearPending bit t)
      | .user => drain n pending t
      | .handler => drain n pending (clearPending bit t)

/-- `sizeof (struct sigframe)`: return address, signal number, saved frame, trampoline. -/
def sigframeSize : ℕ := 80

/-- `SYS_SIGRETURN` -/
def sysSigreturnNum : ℕ := 119

/-- Where the signal frame goes below the user's stack pointer. -/
def sigframeAddr (userEsp : ℕ) : ℕ := sub32 (clearLow 4 (sub32 userEsp sigframeSize)) 4

def setupUserSigframe (frame : TrapFrame) (signum handler : ℕ) (s : KState) : TrapFrame × KState :=
  let usp := sigframeAddr frame.userEsp
  let s := s.writeUser (add32 usp 8) (frame.words.flatMap wordBytes)
  let s := s.writeUser (add32 usp 4) (wordBytes signum)
  let s := s.writeUser usp (wordBytes (add32 usp 72))
  let s := s.writeUser (add32 usp 72)
    [0xb8, sysSigreturnNum % 256, sysSigreturnNum / 256 % 256, sysSigreturnNum / 256 ^ 2 % 256,
      sysSigreturnNum / 256 ^ 3 % 256, 0xcd, 0x80, 0x90]
  ({ frame with eip := handler, userEsp := usp, eflags := frame.eflags &&& (wordSize - 1 - 2 ^ 10) }, s)

/-- The first pending signal with a handler of the user's own. -/
def findCaught (t : Task) : ℕ → BitVec 32 → Option (BitVec 32)
  | 0, _ => none
  | n + 1, pending =>
    if pending = 0 then none
    else
      let bit := lowestBit pending
      let pending := pending &&& ~~~bit
      let handler := t.signalHandlers (signumOf bit)
      if bit &&& sigImmutableMask ≠ 0 ∨ handler = sigDfl ∨ handler = sigIgn then findCaught t n pending
      else some bit

def caughtSignal (t : Task) : Option (BitVec 32) := findCaught t 32 t.pendingSignals

def signalCheckAndDeliver (frame : TrapFrame) (s : KState) : TrapFrame × KState :=
  if frame.cs &&& 3 ≠ 3 then (frame, s)
  else
    match caughtSignal s.current with
    | none => (frame, s)
    | some bit =>
      setupUserSigframe frame (signumOf bit) (s.current.signalHandlers (signumOf bit))
        (s.modify s.currentTask (clearPending bit))

namespace Task

/-- What dispatch makes of a struct, and the signal it dies of. -/
def drained (t : Task) : Task × Option ℕ := drain 32 t.pendingSignals t

end Task

/-- Replace a task struct. -/
def KState.set (s : KState) (a : ℕ) (t : Task) : KState := s.modify a fun _ => t

def dispatched (fuel t : ℕ) (r : Task × Option ℕ) (s : KState) : Kernel KState :=
  match r.2 with
  | none => .ok (s.set t r.1)
  | some signum => doExit fuel t (128 + signum) (s.set t r.1)

theorem KState.set_self (s : KState) (a : ℕ) : s.set a (s.task a) = s := by
  simp [set, modify]

theorem KState.set_modify (s : KState) (a : ℕ) (t : Task) (f : Task → Task) :
    (s.modify a f).set a t = s.set a t := by
  simp [set, modify]

theorem notifyParent_zombie {t a : ℕ} {s : KState} :
    ((notifyParent t s).task a).state = .zombie ↔ (s.task a).state = .zombie := by
  unfold notifyParent
  split
  · exact kernelSignalSend_zombie
  · exact Iff.rfl

theorem doExit_state {fuel t code : ℕ} {s s' : KState} (h : doExit fuel t code s = .ok s') :
    (s'.task t).state = .zombie := by
  obtain ⟨u, -, h⟩ := bind_eq_ok.mp h
  obtain rfl := Except.ok.inj h
  rw [notifyParent_zombie, KState.modify_task_self]

/-- A task that is a zombie or stopped is drained no further. -/
theorem dispatchLoop_of_ended {fuel t n : ℕ} {pending : BitVec 32} {s : KState}
    (h : (s.task t).state = .zombie ∨ (s.task t).state = .stopped) :
    dispatchLoop fuel t n pending s = .ok s := by
  cases n with
  | zero => rfl
  | succ n =>
    rw [dispatchLoop, if_pos h, ite_self]

theorem doExit_then_dispatchLoop (fuel t code n : ℕ) (pending : BitVec 32) (s : KState) :
    (doExit fuel t code s >>= dispatchLoop fuel t n pending) = doExit fuel t code s := by
  cases h : doExit fuel t code s with
  | error e => rfl
  | ok s' => exact dispatchLoop_of_ended (.inl (doExit_state h))

/-- The loop drains the struct and then ends the task if a signal says so. -/
theorem dispatchLoop_eq (fuel t n : ℕ) (pending : BitVec 32) (s : KState) :
    dispatchLoop fuel t n pending s = dispatched fuel t (drain n pending (s.task t)) s := by
  induction n generalizing pending s with
  | zero => simp [dispatchLoop, drain, dispatched, KState.set_self]
  | succ n ih =>
    rw [dispatchLoop, drain]
    by_cases hp : pending = 0
    · simp [hp, dispatched, KState.set_self]
    rw [if_neg hp, if_neg hp]
    by_cases hs : (s.task t).state = .zombie ∨ (s.task t).state = .stopped
    · simp [hs, dispatched, KState.set_self]
    rw [if_neg hs, if_neg hs]
    have hdispatched : ∀ f : Task → Task, ∀ r, dispatched fuel t r (s.modify t f) = dispatched fuel t r s := by
      intro f r
      simp only [dispatched, KState.set_modify]
    generalize lowestBit pending = bit
    dsimp only
    cases hd : disposition (s.task t) bit with
    | dflt =>
      simp only [sigDefaultAction]
      by_cases hterm : terminates (signumOf bit) = true
      · simp only [hterm, ↓reduceIte]
        rw [doExit_then_dispatchLoop]
        rfl
      by_cases hstop : stops (signumOf bit) = true
      · have hz : ((s.modify t (clearPending bit)).task t).state ≠ .zombie := by
          rw [KState.modify_task_self]
          exact fun h => hs (.inl h)
        simp only [hterm, hstop, ↓reduceIte, hz, ne_eq, not_false_eq_true, Bool.false_eq_true]
        refine (dispatchLoop_of_ended (.inr (by simp))).trans ?_
        simp [dispatched, KState.set, KState.modify]
      · simp only [hterm, hstop, ↓reduceIte, Bool.false_eq_true]
        refine (ih _ _).trans ?_
        rw [hdispatched, KState.modify_task_self]
    | ign => simp only [ih, hdispatched, KState.modify_task_self]
    | user => simp only [ih]
    | handler => simp only [ih, hdispatched, KState.modify_task_self]

theorem kernelSignalDispatch_eq (fuel t : ℕ) (s : KState) :
    kernelSignalDispatch fuel t s = dispatched fuel t (s.task t).drained s :=
  dispatchLoop_eq fuel t 32 _ s

/-- Draining touches the pending set, and the state only to stop a task that is neither a
zombie nor stopped. -/
theorem drain_fst (n : ℕ) (pending : BitVec 32) (t : Task) : ∃ p st,
    (drain n pending t).1 = { t with pendingSignals := p, state := st } ∧
      (st = t.state ∨ st = .stopped ∧ t.state ≠ .zombie) := by
  induction n generalizing pending t with
  | zero => exact ⟨_, _, rfl, .inl rfl⟩
  | succ n ih =>
    rw [drain]
    split_ifs with hp hs
    · exact ⟨_, _, rfl, .inl rfl⟩
    · exact ⟨_, _, rfl, .inl rfl⟩
    · generalize lowestBit pending = bit
      dsimp only
      have hclear : ∃ p st, (drain n (pending &&& ~~~bit) (clearPending bit t)).1 =
          { t with pendingSignals := p, state := st } ∧
            (st = t.state ∨ st = .stopped ∧ t.state ≠ .zombie) := ih _ _
      cases disposition t bit with
      | dflt =>
        dsimp only
        split_ifs
        · exact ⟨_, _, rfl, .inl rfl⟩
        · exact ⟨_, _, rfl, .inr ⟨rfl, fun h => hs (.inl h)⟩⟩
        · exact hclear
      | ign => exact hclear
      | user => exact ih _ _
      | handler => exact hclear

end HekaOS.Tasks
