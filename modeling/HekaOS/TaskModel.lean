import Mathlib.Data.Finset.Basic
import HekaOS.ByteMemory
import HekaOS.KernelMemory
import HekaOS.PointerChain

/-!
# Tasks and the state of the kernel around them

`struct task`, the globals of `task.c` and `sched.c`, and the interrupt flag. Task structs
are named by numbers, so a `struct task *` is an `Option ℕ`; `init_task` and `kthreadd_task`
are the two static ones. A struct that was freed keeps a name, with contents nobody vouches
for. `live` and `trace` are bookkeeping: which structs exist, and what the kernel did that a
claim about interrupts or user pointers has to see. Stores through addresses that a user task
has chosen (`wait(&status)`, the frame of a caught signal) go to `user` and are thereby assumed
to stay outside kernel memory, which the kernel does not check; `KernelImage` lifts that.
-/

namespace HekaOS.Tasks
open MachineWord KernelMemory PointerChain ByteMemory

/-- `enum task_state` -/
inductive TaskState where
  | runnable
  | running
  | blocked
  | zombie
  | stopped
  deriving DecidableEq, Repr

/-- `struct trap_frame`, in the order of its words on the stack. -/
structure TrapFrame where
  ds : ℕ
  edi : ℕ
  esi : ℕ
  ebp : ℕ
  espSaved : ℕ
  ebx : ℕ
  edx : ℕ
  ecx : ℕ
  eax : ℕ
  intNo : ℕ
  errCode : ℕ
  eip : ℕ
  cs : ℕ
  eflags : ℕ
  userEsp : ℕ
  userSs : ℕ

namespace TrapFrame

def words (f : TrapFrame) : List ℕ :=
  [f.ds, f.edi, f.esi, f.ebp, f.espSaved, f.ebx, f.edx, f.ecx, f.eax, f.intNo, f.errCode, f.eip,
    f.cs, f.eflags, f.userEsp, f.userSs]

/-- `sizeof (struct trap_frame)` -/
def size : ℕ := 64

/-- A frame read back from memory. -/
def ofBytes (bytes : List ℕ) : TrapFrame where
  ds := wordAt bytes 0
  edi := wordAt bytes 1
  esi := wordAt bytes 2
  ebp := wordAt bytes 3
  espSaved := wordAt bytes 4
  ebx := wordAt bytes 5
  edx := wordAt bytes 6
  ecx := wordAt bytes 7
  eax := wordAt bytes 8
  intNo := wordAt bytes 9
  errCode := wordAt bytes 10
  eip := wordAt bytes 11
  cs := wordAt bytes 12
  eflags := wordAt bytes 13
  userEsp := wordAt bytes 14
  userSs := wordAt bytes 15

end TrapFrame

/-- `struct mm_struct`; a page directory is named by the pid it belongs to. -/
structure MmStruct where
  pgdir : ℕ := 0
  codeStart : ℕ := 0
  codeEnd : ℕ := 0
  dataStart : ℕ := 0
  dataEnd : ℕ := 0
  stackTop : ℕ := 0
  heapBrk : ℕ := 0

/-- `struct task`, less the saved registers in `thread`. The defaults are what `memset`
leaves. -/
structure Task where
  state : TaskState := .runnable
  pid : ℕ := 0
  parent : Option ℕ := none
  children : Option ℕ := none
  sibling : Option ℕ := none
  kstack : ℕ := 0
  mm : MmStruct := {}
  next : Option ℕ := none
  quantum : ℕ := 0
  timeLeft : ℕ := 0
  exitCode : ℕ := 0
  uid : ℕ := 0
  euid : ℕ := 0
  pendingSignals : BitVec 32 := 0
  signalHandlers : ℕ → ℕ := fun _ => 0
  isUserspace : Bool := false
  logBuf : Option (ℕ → ℕ) := none
  logHead : ℕ := 0
  logLen : ℕ := 0
  inBuf : Option (ℕ → ℕ) := none
  inHead : ℕ := 0
  inTail : ℕ := 0

/-- `MAX_PROC` -/
def maxProc : ℕ := 128

/-- `PROC_QUANTUM` -/
def procQuantum : ℕ := 10

/-- `PAGE_SIZE` -/
def pageSize : ℕ := 4096

/-- `KSTACK_VA_BASE` -/
def kstackVaBase : ℕ := 0xEF000000

/-- `KSTACK_PAGES` -/
def kstackPages : ℕ := 2

/-- `USER_CODE_BASE` -/
def userCodeBase : ℕ := 0x08048000

/-- `KERNEL_VIRT_BASE` -/
def kernelVirtBase : ℕ := 0xC0000000

/-- `USER_STACK_TOP` -/
def userStackTop : ℕ := kernelVirtBase

/-- `INIT_PID` -/
def initPid : ℕ := 1

/-- `&init_task` -/
def initTask : ℕ := 0

/-- `&kthreadd_task` -/
def kthreaddTask : ℕ := 1

/-- The calls that change data shared by all tasks. -/
inductive KCall where
  | taskReap (zombie : ℕ)
  | pagingProcTeardown (pid : ℕ)
  | freePage (va : ℕ)
  | kmemFree
  | kfree (t : ℕ)
  deriving DecidableEq

/-- What is recorded of a run: calls with the interrupt flag they were made under, and
accesses to `len` bytes at an address taken from a user's registers. -/
inductive Event where
  | call (c : KCall) (interruptFlag : Bool)
  | access (addr len : ℕ)
  deriving DecidableEq

structure KState where
  task : ℕ → Task
  taskCounter : ℕ
  taskListHead : Option ℕ
  currentTask : ℕ
  initProc : Option ℕ
  needResched : Bool
  nextTask : Option ℕ
  lapAnchor : Option ℕ
  lapNum : ℕ
  blockedMarker : Bool
  unblockedMarker : Bool
  interruptFlag : Bool
  /-- `tss.esp0` -/
  esp0 : ℕ
  /-- The memory seen through user pointers. -/
  user : Memory
  live : Finset ℕ
  trace : List Event

namespace KState

/-- Store to fields of a task struct. -/
def modify (s : KState) (a : ℕ) (f : Task → Task) : KState :=
  { s with task := Function.update s.task a (f (s.task a)) }

/-- The task on the CPU. -/
def current (s : KState) : Task := s.task s.currentTask

def sibling (s : KState) (a : ℕ) : Option ℕ := (s.task a).sibling
def next (s : KState) (a : ℕ) : Option ℕ := (s.task a).next

def call (s : KState) (c : KCall) : KState := { s with trace := s.trace ++ [.call c s.interruptFlag] }
def access (s : KState) (addr len : ℕ) : KState := { s with trace := s.trace ++ [.access addr len] }

/-- Store through a user pointer, to memory that is none of the kernel's. -/
def writeUser (s : KState) (addr : ℕ) (bytes : List ℕ) : KState :=
  { s.access addr bytes.length with user := storeBytes s.user addr bytes }

@[simp] theorem modify_task_self (s : KState) (a : ℕ) (f : Task → Task) :
    (s.modify a f).task a = f (s.task a) := Function.update_self _ _ _

theorem modify_task_of_ne (s : KState) {a b : ℕ} (f : Task → Task) (h : b ≠ a) :
    (s.modify a f).task b = s.task b := Function.update_of_ne h _ _

/-- A field that an update of a task leaves alone is the same in every task. -/
theorem modify_field {α : Type} (s : KState) (a b : ℕ) (f : Task → Task) (g : Task → α)
    (h : g (f (s.task a)) = g (s.task a)) : g ((s.modify a f).task b) = g (s.task b) := by
  by_cases hb : b = a
  · subst hb
    simpa using h
  · rw [modify_task_of_ne s f hb]

@[simp] theorem modify_live (s : KState) (a : ℕ) (f : Task → Task) : (s.modify a f).live = s.live := rfl

@[simp] theorem modify_currentTask (s : KState) (a : ℕ) (f : Task → Task) :
    (s.modify a f).currentTask = s.currentTask := rfl

@[simp] theorem modify_initProc (s : KState) (a : ℕ) (f : Task → Task) :
    (s.modify a f).initProc = s.initProc := rfl

@[simp] theorem modify_taskListHead (s : KState) (a : ℕ) (f : Task → Task) :
    (s.modify a f).taskListHead = s.taskListHead := rfl

@[simp] theorem call_task (s : KState) (c : KCall) : (s.call c).task = s.task := rfl

end KState

end HekaOS.Tasks
