import HekaOS.SignalDispatch

/-!
# The scheduler

`sched.c` and the switch in `irq_common_stub`: a timer tick drains the signals of the current
task, decides whether it goes on, and otherwise picks the next runnable task of the list. The
third and the fourth round of the list block and unblock tasks as a test.
-/

namespace HekaOS.Tasks
open MachineWord KernelMemory PointerChain

/-- `LAP_BLOCK_TRIGGER` -/
def lapBlockTrigger : ℕ := 3

/-- `LAP_UNBLOCK_TRIGGER` -/
def lapUnblockTrigger : ℕ := lapBlockTrigger + 1

/-- The body of the search for the highest pid that is ready to run. -/
def faultyTarget (next : ℕ) (s : KState) (best : Option ℕ) (t : ℕ) : Option ℕ :=
  if t = next ∨ some t = s.lapAnchor ∨ (s.task t).pid = 0 then best
  else if (s.task t).state ≠ .runnable ∧ (s.task t).state ≠ .running then best
  else
    match best with
    | none => some t
    | some b => if (s.task b).pid < (s.task t).pid then some t else best

def maybeBlockFaultyTarget (fuel next : ℕ) (s : KState) : Kernel KState :=
  if s.blockedMarker ∨ s.lapNum ≠ lapBlockTrigger then .ok s
  else do
    let tasks ← ended (collect s.next fuel s.taskListHead)
    match tasks.foldl (faultyTarget next s) none with
    | none => .ok s
    | some t => .ok { s.modify t fun x => { x with state := .blocked } with blockedMarker := true }

/-- The body of the loop that unblocks every blocked task. -/
def unblock (s : KState) (t : ℕ) : KState :=
  if (s.task t).state ≠ .blocked then s else s.modify t fun x => { x with state := .runnable }

def maybeUnblockFaultyTarget (fuel : ℕ) (s : KState) : Kernel KState :=
  if s.unblockedMarker ∨ s.lapNum ≠ lapUnblockTrigger then .ok s
  else do
    let tasks ← ended (collect s.next fuel s.taskListHead)
    .ok { tasks.foldl unblock s with unblockedMarker := true }

/-- `t->next ? t->next : task_list_head` -/
def nextOrHead (s : KState) (t : ℕ) : Option ℕ := (s.next t).or s.taskListHead

def pickLoop (s : KState) (start : ℕ) : ℕ → ℕ → Kernel ℕ
  | 0, _ => .error .spin
  | n + 1, t =>
    if t ≠ s.currentTask ∧ (s.task t).state = .runnable then .ok t
    else
      match nextOrHead s t with
      | none => .error .nullPointer
      | some t => if t = start then .ok s.currentTask else pickLoop s start n t

def pickNextTask (fuel : ℕ) (s : KState) : Kernel ℕ :=
  match nextOrHead s s.currentTask with
  | none => .error .nullPointer
  | some start => pickLoop s start fuel start

/-- The lap accounting at the end of `schedule`. -/
def countLap (fuel next : ℕ) (s : KState) : Kernel KState :=
  match s.lapAnchor with
  | none => .ok { s with lapAnchor := some next }
  | some anchor =>
    if next = anchor then do
      let s := { s with lapNum := s.lapNum + 1 }
      let s ← maybeBlockFaultyTarget fuel next s
      maybeUnblockFaultyTarget fuel s
    else .ok s

/-- `if (current_task->state == TASK_RUNNING) current_task->state = TASK_RUNNABLE;` -/
def yieldCurrent (s : KState) : KState :=
  if s.current.state = .running then s.modify s.currentTask fun x => { x with state := .runnable }
  else s

/-- Mark the next task as running, point `tss.esp0` to its kernel stack if it runs in Ring 3, and
request the switch. -/
def startTask (next : ℕ) (s : KState) : KState :=
  { s.modify next fun x => { x with state := .running } with
    esp0 := if (s.task next).isUserspace then (s.task next).kstack + kstackPages * pageSize else s.esp0
    nextTask := some next
    needResched := true }

/-- `current_task->time_left = current_task->quantum;` -/
def refillQuantum (s : KState) : KState :=
  s.modify s.currentTask fun x => { x with timeLeft := x.quantum }

/-- `--current_task->time_left` -/
def spendTick (s : KState) : KState :=
  s.modify s.currentTask fun x => { x with timeLeft := sub32 x.timeLeft 1 }

/-- The part of `schedule` behind the decision to switch. -/
def reschedule (fuel : ℕ) (s : KState) : Kernel KState := do
  let s := refillQuantum s
  let next ← pickNextTask fuel s
  if next = s.currentTask then .ok s else countLap fuel next (startTask next (yieldCurrent s))

/-- `if (current_task->pending_signals) kernel_signal_dispatch (current_task);` -/
def drainCurrent (fuel : ℕ) (s : KState) : Kernel KState :=
  if s.current.pendingSignals ≠ 0 then kernelSignalDispatch fuel s.currentTask s else .ok s

def schedule (fuel : ℕ) (s : KState) : Kernel KState := do
  let s ← drainCurrent fuel s
  if s.current.state ≠ .running then reschedule fuel s
  else if 0 < (spendTick s).current.timeLeft then .ok (spendTick s)
  else reschedule fuel (spendTick s)

/-- The switch on the way out of an interrupt. -/
def contextSwitch (s : KState) : KState :=
  if s.needResched then { s with currentTask := s.nextTask.getD s.currentTask, needResched := false }
  else s

/-- A timer interrupt: it is taken with interrupts enabled and returns to code that had
them enabled. -/
def tick (fuel : ℕ) (s : KState) : Kernel KState := do
  let s ← schedule fuel { s with interruptFlag := false }
  .ok { contextSwitch s with interruptFlag := true }

end HekaOS.Tasks
