import HekaOS.ReturnFrames
import HekaOS.SystemRuns
import HekaOS.TrapStubs

/-!
# Kernel stacks and the switch between them

The timer interrupt is where the CPU changes hands: `irq_common_stub` leaves the frame of the
interrupted task on its kernel stack, stores the stack pointer in `thread.esp` and goes on with the
stack pointer of the next task. The steps of the machine are such interrupts and, in between, whatever
the task on the CPU does with its registers, its stack and the kernel.
-/

namespace HekaOS.Traps
open MachineWord ByteMemory StackCpu KernelMemory Tasks TaskMemory TransitionSystem

/-- The processor with the kernel half of its memory, which all page directories share, `CR3`, the
field `thread.esp` of every task, and the data of the kernel. -/
structure Machine where
  cpu : Cpu
  cr3 : ℕ
  esp : ℕ → Word
  tasks : KState

/-- The stack of `boot.s` -/
def bootStackSize : ℕ := 16384

/-- The lowest address of a task's kernel stack; `init_task` runs on the stack of `boot.s`. -/
def stackBase (boot : ℕ) (s : KState) (t : ℕ) : ℕ := if t = initTask then boot else (s.task t).kstack

def stackTop (boot : ℕ) (s : KState) (t : ℕ) : ℕ :=
  if t = initTask then boot + bootStackSize else (s.task t).kstack + kstackPages * pageSize

/-- The words of a frame that the CPU and the stub push: the last two only if the ring changes. -/
def pushedWords (f : TrapFrame) : List Word := if f.cs % 4 = 0 then (frameWords f).take 14 else frameWords f

/-- The registers that wait on the stack of a task that is not on the CPU -/
def Machine.context (m : Machine) (t : ℕ) : TrapFrame := frameAt m.cpu.mem (m.esp t).toNat

/-- `exec_fn` -/
def kthreadFrame (addr : ℕ) : TrapFrame where
  ds := 0x10
  edi := 0
  esi := 0
  ebp := 0
  espSaved := 0
  ebx := 0
  edx := 0
  ecx := 0
  eax := 0
  intNo := 0
  errCode := 0
  eip := addr
  cs := 0x08
  eflags := 0x202
  userEsp := 0
  userSs := 0

/-! ### The timer interrupt -/

/-- The gate of vector 32 -/
def irq0Gate (offset : Word) : Cpu.Gate := ⟨0x08, offset, false⟩

/-- `irq_common_stub` between its two calls, when `schedule` has left the kernel in the state `v` -/
def switchStack (v : KState) (m : Machine) : Machine :=
  if v.needResched then
    let next := v.nextTask.getD v.currentTask
    let esp := Function.update m.esp v.currentTask m.cpu.esp
    let pgdir := (v.task next).mm.pgdir
    { m with
      cpu := { m.cpu with
        esp := esp next, eax := BitVec.ofNat 32 next, ebx := BitVec.ofNat 32 pgdir, ecx := BitVec.ofNat 32 m.cr3 }
      cr3 := if pgdir = m.cr3 then m.cr3 else pgdir
      esp := esp }
  else m

/-- The state in which the interrupted code finds the kernel behind `schedule` -/
def switched (v : KState) : KState := { contextSwitch v with interruptFlag := true }

/-- A timer interrupt. The C functions write to the stack that they run on, and
`signal_check_and_deliver` also to the frame. -/
inductive TimerStep (boot : ℕ) (m : Machine) : Machine → Prop
  | mk {offset : Word} {fuel : ℕ} {v : KState} {c d : Cpu} {n : Machine}
      (henabled : m.cpu.eflags &&& flagIf ≠ 0)
      (hcalled : CalledWithEsp (stackBase boot m.tasks m.tasks.currentTask) ∅
        (trapped (irq 32) (irq0Gate offset) kernelDs (BitVec.ofNat 32 m.tasks.esp0) none m.cpu) c)
      (hschedule : schedule fuel { m.tasks with interruptFlag := false } = .ok v)
      (hn : n = switchStack v { m with cpu := c })
      (hdelivered : CalledWithEsp (stackBase boot (switched v) (switched v).currentTask)
        (Set.Ico n.cpu.esp.toNat (n.cpu.esp.toNat + 4 * (pushedWords (frameAt n.cpu.mem n.cpu.esp.toNat)).length)) n.cpu d)
      (hframe : pushedWords (frameAt d.mem d.esp.toNat) =
        pushedWords (signalCheckAndDeliver (frameAt n.cpu.mem n.cpu.esp.toNat) (switched v)).1) :
      TimerStep boot m { n with
        cpu := restoreContext d
        tasks := (signalCheckAndDeliver (frameAt n.cpu.mem n.cpu.esp.toNat) (switched v)).2 }

/-! ### What the task on the CPU does -/

/-- The task on the CPU runs in Ring 3, which only user tasks do, or on its kernel stack with room
for an interrupt. -/
structure OnOwnStack (boot : ℕ) (m : Machine) : Prop where
  ring : m.cpu.cpl = 0 ∨ m.cpu.cpl = 3 ∧ m.tasks.current.isUserspace = true
  kernel : m.cpu.cpl = 0 → m.cpu.ss = kernelDs ∧
    stackBase boot m.tasks m.tasks.currentTask + 68 ≤ m.cpu.esp.toNat ∧
    m.cpu.esp.toNat ≤ stackTop boot m.tasks m.tasks.currentTask

/-- A task was given the frame `f` at the top of its kernel stack. -/
structure Furnished (boot : ℕ) (f : TrapFrame) (n : Machine) (t : ℕ) : Prop where
  esp : (n.esp t).toNat + TrapFrame.size = stackTop boot n.tasks t
  frame : frameWords (n.context t) = frameWords f

/-- `task_fork` has copied the kernel stack of the task on the CPU, from the frame of its system call
on; the child starts with that frame, and with zero in `eax`. -/
structure Copied (boot : ℕ) (f : TrapFrame) (m n : Machine) (t : ℕ) : Prop where
  loaded : ∃ mem a, f = frameAt mem a
  ring : f.cs % 4 = 0 ∨ f.cs % 4 = 3 ∧ m.tasks.current.isUserspace = true
  esp : ∃ p, stackBase boot m.tasks m.tasks.currentTask + 12 ≤ p ∧
    p + 4 * (pushedWords f).length ≤ stackTop boot m.tasks m.tasks.currentTask ∧
    (n.esp t).toNat = stackBase boot n.tasks t + (p - stackBase boot m.tasks m.tasks.currentTask) ∧
    ∀ x, p + 4 * (pushedWords f).length ≤ x → x < stackTop boot m.tasks m.tasks.currentTask →
      n.cpu.mem (stackBase boot n.tasks t + (x - stackBase boot m.tasks m.tasks.currentTask)) = m.cpu.mem x
  frame : pushedWords (n.context t) = pushedWords (forkFrame f)

/-- What the creators of tasks leave for a new one -/
def Prepared (boot : ℕ) (m n : Machine) (t : ℕ) : KOp → Prop
  | .execInitFn _ _ => Furnished boot startupFrame n t
  | .execFn _ addr _ => Furnished boot (kthreadFrame addr) n t
  | .execUserFn _ _ => Furnished boot startupFrame n t
  | .syscall _ frame => Copied boot frame m n t
  | _ => True

/-- The task on the CPU runs, and may make the kernel do an operation. Two things are assumed of such a
step: that it leaves the stacks of the other tasks alone, so that no address that a task hands to `wait`
or uses as its stack leads there, and that the creator of a new task has filled in its stack. -/
structure RunStep (boot : ℕ) (m n : Machine) : Prop where
  tasks : n.tasks = m.tasks ∨ ∃ op, (∀ fuel, op ≠ .tick fuel) ∧ op.OnCpu m.tasks ∧ KStep op m.tasks n.tasks ∧
    ∀ t ∈ n.tasks.live, t ∉ m.tasks.live → Prepared boot m n t op
  others : ∀ t ∈ m.tasks.live, t ∈ n.tasks.live → t ≠ m.tasks.currentTask → t ≠ kthreaddTask → n.esp t = m.esp t ∧
    ∀ x, stackBase boot m.tasks t ≤ x → x < stackTop boot m.tasks t → n.cpu.mem x = m.cpu.mem x
  cr3 : n.cr3 = m.cr3
  ready : OnOwnStack boot n

/-- `kernel_main` behind `task_init`; the image of the kernel lies below the kernel stacks. -/
structure MachineBooted (boot : ℕ) (m : Machine) : Prop where
  tasks : Boot m.tasks
  image : boot + bootStackSize ≤ kstackVaBase
  cr3 : m.cr3 = 0
  ready : OnOwnStack boot m

def MachineRun (boot : ℕ) (m : Machine) : Prop :=
  Reachable (MachineBooted boot) (fun m n => RunStep boot m n ∨ TimerStep boot m n) m

end HekaOS.Traps
