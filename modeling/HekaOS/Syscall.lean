import HekaOS.Sched

/-!
# System calls

`syscall.c`: the handlers behind `int 0x80` and the dispatch through the table. The run of a
call is its outcome together with the state it leaves, also when it does not return. What
other tasks do while `sys_wait` halts is an input (`SysEnv.wake`).
-/

namespace HekaOS.Tasks
open MachineWord KernelMemory PointerChain ByteMemory

/-- How a call ends: it returns a value, parks the dying task, is still waiting after the
rounds it was given, or gets stuck. -/
inductive Outcome where
  | returned (value : ℕ)
  | parked
  | waiting
  | stuck (why : Stop)
  deriving DecidableEq

/-- `(uint32_t)-1` -/
def minusOne : ℕ := 2 ^ 32 - 1

structure SysEnv where
  fuel : ℕ
  /-- How many rounds of the loop of `sys_wait` are run. -/
  rounds : ℕ
  spawn : SpawnEnv
  /-- What `kmem_alloc` returns for a log buffer. -/
  logBuf : Option (ℕ → ℕ)
  /-- The state in which a halt of `sys_wait` ends, by the number of the halt. -/
  wake : ℕ → KState → KState

/-- A kernel call at the end of a handler. -/
def finish (value : ℕ) (s : KState) : Kernel KState → Outcome × KState
  | .ok s => (.returned value, s)
  | .error e => (.stuck e, s)

def sysExit (env : SysEnv) (status : ℕ) (s : KState) : Outcome × KState :=
  match doExit env.fuel s.currentTask status s with
  | .ok s => (.parked, { s with interruptFlag := true })
  | .error e => (.stuck e, s)

def userRangeOk (addr count : ℕ) : Bool :=
  let e := add32 addr count
  if e < addr then false else decide (userCodeBase ≤ addr ∧ e ≤ kernelVirtBase)

/-- `TASK_INPUT_SIZE` -/
def taskInputSize : ℕ := 256

/-- `TASK_LOG_SIZE` -/
def taskLogSize : ℕ := 1024

/-- The loop of `task_input_read`, with what is left of `count` and what was read. -/
def taskInputRead (t dst : ℕ) : ℕ → ℕ → KState → ℕ × KState
  | 0, n, s => (n, s)
  | left + 1, n, s =>
    match (s.task t).inBuf with
    | none => (n, s)
    | some buf =>
      let tail := (s.task t).inTail
      if (s.task t).inHead = tail then (n, s)
      else
        let s := s.writeUser (add32 dst n) [buf tail]
        taskInputRead t dst left (n + 1)
          (s.modify t fun x => { x with inTail := (tail + 1) &&& (taskInputSize - 1) })

def sysRead (fd buf count : ℕ) (s : KState) : Outcome × KState :=
  if fd ≠ 0 then (.returned minusOne, s)
  else if !userRangeOk buf count then (.returned minusOne, s)
  else
    let (n, s) := taskInputRead s.currentTask buf count 0 s
    (.returned n, s)

/-- The store behind the allocation in `task_log_putchar`. -/
def logStore (buf : ℕ → ℕ) (c : ℕ) (x : Task) : Task :=
  { x with
    logBuf := some (Function.update buf x.logHead c)
    logHead := (x.logHead + 1) &&& (taskLogSize - 1)
    logLen := if x.logLen < taskLogSize then x.logLen + 1 else x.logLen }

def taskLogPutchar (env : SysEnv) (t c : ℕ) (s : KState) : KState :=
  match (s.task t).logBuf.or env.logBuf with
  | none => s
  | some buf => s.modify t (logStore buf c)

def sysWrite (env : SysEnv) (fd buf count : ℕ) (s : KState) : Outcome × KState :=
  if fd ≠ 1 ∧ fd ≠ 2 then (.returned minusOne, s)
  else if !userRangeOk buf count then (.returned minusOne, s)
  else
    let s := (List.range count).foldl (fun s i =>
      let a := add32 buf i
      taskLogPutchar env s.currentTask (s.user a % 256) (s.access a 1)) s
    (.returned count, s)

def sysSignal (signum handler : ℕ) (s : KState) : Outcome × KState :=
  -- a negative `int` is a word of at least `2 ^ 31`
  if signum = 0 ∨ nsig ≤ signum then (.returned sigErr, s)
  else
    let previous := s.current.signalHandlers signum
    (.returned previous, kernelSignalRegister s.currentTask signum handler s)

/-- The search of `sys_kill` for its target. -/
def killTarget (fuel pid : ℕ) (s : KState) : Option (Option ℕ) :=
  find s.next (fun t => decide ((s.task t).pid = pid)) fuel s.taskListHead

def sysKill (env : SysEnv) (pid signum : ℕ) (s : KState) : Outcome × KState :=
  if nsig ≤ signum then (.returned minusOne, s)
  else
    match killTarget env.fuel pid s with
    | none => (.stuck .spin, s)
    | some none => (.returned minusOne, s)
    | some (some target) =>
      let euid := s.current.euid
      if ¬(euid = 0 ∨ euid = (s.task target).uid ∨ euid = (s.task target).euid) then
        (.returned minusOne, s)
      else if signum = 0 then (.returned 0, s)
      else
        let s := kernelSignalSend target signum s
        if target = s.currentTask then finish 0 s (kernelSignalDispatch env.fuel s.currentTask s)
        else (.returned 0, s)

/-- The scan of `sys_wait` for a child that is a zombie. -/
def findZombie (fuel : ℕ) (s : KState) : Option (Option ℕ) :=
  find s.sibling (fun c => decide ((s.task c).state = .zombie)) fuel s.current.children

/-- What `sys_wait` does with a zombie it found. -/
def collectZombie (fuel wstatus zombie : ℕ) (s : KState) : Outcome × KState :=
  let pid := (s.task zombie).pid
  let s := if wstatus ≠ 0 then s.writeUser wstatus (wordBytes (s.task zombie).exitCode) else s
  let s := s.call (.taskReap zombie)
  finish pid s (taskReap fuel zombie s)

/-- `current_task->state = TASK_BLOCKED;` -/
def blockCurrent (s : KState) : KState :=
  s.modify s.currentTask fun x => { x with state := .blocked }

/-- The halts of one round: interrupts are enabled, and stay so when the task goes on. -/
def haltUntilWoken (env : SysEnv) (k : ℕ) (s : KState) : KState :=
  { env.wake k { s with interruptFlag := true } with interruptFlag := true, trace := s.trace }

def waitLoop (env : SysEnv) (wstatus : ℕ) : ℕ → ℕ → KState → Outcome × KState
  | 0, _, s => (.waiting, s)
  | n + 1, k, s =>
    match findZombie env.fuel s with
    | none => (.stuck .spin, s)
    | some (some zombie) => collectZombie env.fuel wstatus zombie s
    | some none => waitLoop env wstatus n (k + 1) (haltUntilWoken env k (blockCurrent s))

def sysWait (env : SysEnv) (wstatus : ℕ) (s : KState) : Outcome × KState :=
  if s.current.children = none ∧ some s.currentTask ≠ s.initProc then (.returned minusOne, s)
  else waitLoop env wstatus env.rounds 0 s

def sysFork (env : SysEnv) (s : KState) : Outcome × KState :=
  match taskFork env.spawn s with
  | (none, s) => (.returned minusOne, s)
  | (some pid, s) => (.returned pid, s)

/-- Where `sys_sigreturn` reads the saved frame. -/
def sigreturnAddr (userEsp : ℕ) : ℕ := add32 (sub32 userEsp 4) 8

def sysSigreturn (frame : TrapFrame) (s : KState) : TrapFrame × KState :=
  let addr := sigreturnAddr frame.userEsp
  let saved := TrapFrame.ofBytes (loadBytes s.user addr TrapFrame.size)
  ({ saved with
      cs := 0x23
      userSs := 0x2B
      ds := 0x2B
      eflags := (saved.eflags &&& 0xCD5) ||| 0x202 },
    s.access addr TrapFrame.size)

/-- The entries of `syscall_table`. -/
inductive Syscall where
  | exit
  | fork
  | read
  | write
  | waitpid
  | kill
  | signal
  | sigreturn
  | getuid
  | geteuid
  deriving DecidableEq

def syscallTable : ℕ → Option Syscall
  | 1 => some .exit
  | 2 => some .fork
  | 3 => some .read
  | 4 => some .write
  | 7 => some .waitpid
  | 37 => some .kill
  | 48 => some .signal
  | 119 => some .sigreturn
  | 199 => some .getuid
  | 201 => some .geteuid
  | _ => none

/-- The call through the table, with the three argument registers. -/
def syscallHandler (env : SysEnv) (n : Syscall) (frame : TrapFrame) (s : KState) :
    Outcome × TrapFrame × KState :=
  let plain (r : Outcome × KState) : Outcome × TrapFrame × KState := (r.1, frame, r.2)
  match n with
  | .exit => plain (sysExit env frame.ebx s)
  | .fork => plain (sysFork env s)
  | .read => plain (sysRead frame.ebx frame.ecx frame.edx s)
  | .write => plain (sysWrite env frame.ebx frame.ecx frame.edx s)
  | .waitpid => plain (sysWait env frame.ebx s)
  | .kill => plain (sysKill env frame.ebx frame.ecx s)
  | .signal => plain (sysSignal frame.ebx frame.ecx s)
  | .sigreturn =>
    let r := sysSigreturn frame s
    (.returned r.1.eax, r)
  | .getuid => plain (.returned s.current.uid, s)
  | .geteuid => plain (.returned s.current.euid, s)

def setEax (r : Outcome × TrapFrame × KState) : Outcome × TrapFrame × KState :=
  match r.1 with
  | .returned v => (r.1, { r.2.1 with eax := v }, r.2.2)
  | _ => r

def syscallDispatch (env : SysEnv) (frame : TrapFrame) (s : KState) : Outcome × TrapFrame × KState :=
  match syscallTable frame.eax with
  | none => (.returned minusOne, { frame with eax := minusOne }, s)
  | some n => setEax (syscallHandler env n frame s)

/-- `int 0x80` up to the `iret`: the stub disables interrupts, and a call that returns is
followed by the delivery of a caught signal. -/
def int80 (env : SysEnv) (frame : TrapFrame) (s : KState) : Outcome × TrapFrame × KState :=
  let r := syscallDispatch env frame { s with interruptFlag := false }
  match r.1 with
  | .returned _ => (r.1, signalCheckAndDeliver r.2.1 r.2.2)
  | _ => r

end HekaOS.Tasks
