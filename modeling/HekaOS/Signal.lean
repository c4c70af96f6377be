import HekaOS.TaskModel

/-!
# Sending signals

Signal numbers, masks, `kernel_signal_register` and `kernel_signal_send`. A send changes only
the pending set and the state of the target, and never the state of a zombie.
-/

namespace HekaOS.Tasks
open KernelMemory

/-- `NSIG` -/
def nsig : ℕ := 32

def sighup : ℕ := 1
def sigint : ℕ := 2
def sigquit : ℕ := 3
def sigill : ℕ := 4
def sigtrap : ℕ := 5
def sigabrt : ℕ := 6
def sigbus : ℕ := 7
def sigfpe : ℕ := 8
def sigkill : ℕ := 9
def sigsegv : ℕ := 11
def sigpipe : ℕ := 13
def sigalrm : ℕ := 14
def sigterm : ℕ := 15
def sigchld : ℕ := 17
def sigcont : ℕ := 18
def sigstop : ℕ := 19
def sigtstp : ℕ := 20

/-- `SIGMASK` -/
def sigmask (sig : ℕ) : BitVec 32 := 1#32 <<< (sig - 1)

/-- `SIG_IMMUTABLE_MASK` -/
def sigImmutableMask : BitVec 32 := sigmask sigkill ||| sigmask sigstop

/-- `SIG_STOP_MASK` -/
def sigStopMask : BitVec 32 := sigmask sigstop ||| sigmask sigtstp

/-- `SIG_DFL` -/
def sigDfl : ℕ := 0

/-- `SIG_IGN` -/
def sigIgn : ℕ := 1

/-- `SIG_ERR` -/
def sigErr : ℕ := 2 ^ 32 - 1

def kernelSignalRegister (t signum handler : ℕ) (s : KState) : KState :=
  if signum = 0 ∨ nsig ≤ signum then s
  else if sigmask signum &&& sigImmutableMask ≠ 0 then s
  else s.modify t fun x => { x with signalHandlers := Function.update x.signalHandlers signum handler }

namespace Task

/-- The body of `kernel_signal_send`, on the struct of its target. -/
def signalSend (signum : ℕ) (t : Task) : Task :=
  if signum = 0 ∨ nsig ≤ signum then t
  else
    let t :=
      if signum = sigcont then
        { t with
          pendingSignals := t.pendingSignals &&& ~~~sigStopMask
          state := if t.state = .stopped then .runnable else t.state }
      else if sigmask signum &&& sigStopMask ≠ 0 then
        { t with pendingSignals := t.pendingSignals &&& ~~~sigmask sigcont }
      else t
    let t := { t with pendingSignals := t.pendingSignals ||| sigmask signum }
    if t.state = .blocked ∨ (t.state = .stopped ∧ signum = sigkill) then { t with state := .runnable }
    else t

/-- A send changes nothing but the pending set and the state. -/
theorem signalSend_eq (signum : ℕ) (t : Task) : ∃ pending state,
    t.signalSend signum = { t with pendingSignals := pending, state := state } := by
  simp only [signalSend]
  split_ifs <;> exact ⟨_, _, rfl⟩

/-- The state a send leaves is the old one, or `TASK_RUNNABLE` for a task that was blocked
or stopped. -/
theorem signalSend_state (signum : ℕ) (t : Task) :
    (t.signalSend signum).state = t.state ∨
      (t.signalSend signum).state = .runnable ∧ (t.state = .blocked ∨ t.state = .stopped) := by
  simp only [signalSend]
  split_ifs <;> simp_all <;> tauto

/-- A valid signal wakes a blocked task. -/
theorem signalSend_ne_blocked {signum : ℕ} (h₀ : 0 < signum) (h : signum < nsig) (t : Task) :
    (t.signalSend signum).state ≠ .blocked := by
  simp only [signalSend]
  rw [if_neg (by omega)]
  split_ifs <;> simp_all

end Task

def kernelSignalSend (t signum : ℕ) (s : KState) : KState := s.modify t (Task.signalSend signum)

variable {s : KState} {a t signum : ℕ}

/-- Every field but the pending set and the state survives a send. -/
theorem kernelSignalSend_field {α : Type} (g : Task → α)
    (hg : ∀ x p st, g { x with pendingSignals := p, state := st } = g x) :
    g ((kernelSignalSend t signum s).task a) = g (s.task a) := by
  refine s.modify_field t a _ g ?_
  obtain ⟨p, st, h⟩ := Task.signalSend_eq signum (s.task t)
  rw [h, hg]

theorem kernelSignalSend_state (s : KState) (t signum a : ℕ) :
    ((kernelSignalSend t signum s).task a).state = (s.task a).state ∨
      ((kernelSignalSend t signum s).task a).state = .runnable ∧
        ((s.task a).state = .blocked ∨ (s.task a).state = .stopped) := by
  by_cases ha : a = t
  · subst ha
    simpa [kernelSignalSend] using Task.signalSend_state signum (s.task a)
  · left
    rw [kernelSignalSend, KState.modify_task_of_ne s _ ha]

theorem kernelSignalSend_zombie :
    ((kernelSignalSend t signum s).task a).state = .zombie ↔ (s.task a).state = .zombie := by
  rcases kernelSignalSend_state s t signum a with h | ⟨h, h' | h'⟩ <;> simp [*]

end HekaOS.Tasks
