import HekaOS.EyeprocPages
import HekaOS.PrintkOutput
import HekaOS.ShellCommands
import HekaOS.TaskInput
import HekaOS.TaskLog

/-!
# What the commands of the shell do

The keyboard interrupt, `shell_add_char` and `shell_execute` with everything they change: the line, the screen,
the layout, the log and the tasks. The interrupt is one step here. That leaves out a tick in the one stretch of it
that lets one in: `shell_eyeproc` enables interrupts at its end, before `shell_add_char` has reset the line.
-/

namespace HekaOS.Sessions
open KernelMemory PointerChain Tasks Vga

/-- The static variables of the keyboard interrupt and of the shell, with the log and the tasks. -/
structure Session where
  extended : Bool
  activeKeymap : Keymap
  shell : Shell
  log : KernelLog
  tasks : KState

/-- What the commands find outside of these: fuel for the walks, the memory for a new task, the addresses and
sizes of the test programs, the numbers that are only printed, and the bytes that `eyeproc` reads from the
keyboard. `kmalloc` and `kmem_alloc` never return null: without memory they panic. -/
structure Machine where
  fuel : ℕ
  /-- What the allocators answer for a new task. -/
  memory : KState → Kernel SpawnEnv
  procCodeBuf : ℕ → ℕ
  kthreadSize : ℕ → ℕ
  userSize : ℕ → ℕ
  /-- `uhandler - usig_fn` -/
  uhandlerOffset : ℕ
  shellDebugSigHandler : ℕ
  /-- The buffer that `task_feed` allocates. -/
  inBuf : Kernel (ℕ → ℕ)
  poolPages : BitVec 32
  freeObjects : BitVec 32
  usedPages : BitVec 32
  totalPages : BitVec 32
  liveEsp : BitVec 32
  threadEsp : ℕ → BitVec 32
  threadTf : ℕ → BitVec 32
  readings : List Reading
  /-- What `INT 0x42` logs; its stack trace reads at the addresses on the `EBP` chain of the interrupted code, which
  need not be mapped. -/
  trapMessages : Kernel (List Byte)
  junk : ℕ → Byte

namespace Session

def onDisplay (f : Display → Display) (s : Session) : Session :=
  { s with shell := { s.shell with display := f s.shell.display } }

def write (l : List Byte) (s : Session) : Session := s.onDisplay (terminalWrite l)

end Session

/-- `printk` with the format and its arguments; the arguments 1 and 2 stand for the two strings that `signal`
prints. -/
def printkArgs (fmt : List Byte) (args : List (BitVec 32)) (g : KernelLog) : KernelLog :=
  let call : PrintkCall :=
    ⟨fun a => fmt.getD a 0, fun n => args.getD n 0, fun p => if p = 1 then chars "ring3" else chars "debug", fun _ => 0⟩
  (printk call (fmt.length + 1) 0 g).1.log

def prInfo (fmt : String) (args : List (BitVec 32)) (g : KernelLog) : KernelLog := printkArgs (chars "<6>" ++ chars fmt) args g
def prWarn (fmt : String) (args : List (BitVec 32)) (g : KernelLog) : KernelLog := printkArgs (chars "<4>" ++ chars fmt) args g

/-! ### Signals from the shell -/

def shellFindTask (fuel : ℕ) (pid : BitVec 32) (s : KState) : Option (Option ℕ) :=
  find s.next (fun t => decide ((s.task t).pid = pid.toNat)) fuel s.taskListHead

/-- `signum <= 0 || signum >= NSIG`, of an `int` -/
def badSignum (signum : BitVec 32) : Bool := signum.toInt ≤ 0 ∨ (nsig : ℤ) ≤ signum.toInt

/-- The checks of `kill` and `signal`, with their messages, before they turn to the task. -/
def onTask (m : Machine) (invalid notFound : String) (pid signum : BitVec 32) (f : ℕ → Session → Session) (s : Session) :
    Kernel Session :=
  if badSignum signum then .ok (s.write (chars invalid))
  else do
    let t ← ended (shellFindTask m.fuel pid s.tasks)
    match t with
    | none => .ok (s.write (chars notFound))
    | some t => .ok (f t s)

def shellKill (m : Machine) (pid signum : BitVec 32) (s : Session) : Kernel Session :=
  onTask m "kill: invalid signal\n" "kill: pid not found\n" pid signum (fun t s => { s with
    tasks := kernelSignalSend t signum.toNat s.tasks
    log := prInfo "kill: sent sig %d to pid %u\n" [signum, pid] s.log }) s

def shellSignal (m : Machine) (pid signum : BitVec 32) (s : Session) : Kernel Session :=
  onTask m "signal: invalid signal\n" "signal: pid not found\n" pid signum (fun t s =>
    if sigmask signum.toNat &&& sigImmutableMask ≠ 0 then
      { s with log := prWarn "signal: sig %d disposition is immutable on pid %u\n" [signum, pid] s.log }
    else
      let isUserspace := (s.tasks.task t).isUserspace
      let handler := if isUserspace then userCodeBase + m.uhandlerOffset else m.shellDebugSigHandler
      { s with
        tasks := kernelSignalRegister t signum.toNat handler s.tasks
        log := prInfo "signal: installed %s handler for sig %d on pid %u\n" [if isUserspace then 1 else 2, signum, pid]
          s.log }) s

/-! ### Test programs -/

/-- `MAX_TEST_PROCS` -/
def maxTestProcs : ℕ := 6

/-- `MAX_UTEST_PROCS` -/
def maxUtestProcs : ℕ := 6

/-- A test program is started from its slot, with the messages of the command. -/
def shellLaunch (max : ℕ) (invalidSlot invalidSize launched : String) (size : ℕ → ℕ)
    (exec : ℤ → ℕ → KState → Kernel KState) (slot : ℤ) (s : Session) : Kernel Session :=
  if slot < 1 ∨ slot > max then .ok (s.write (chars invalidSlot))
  else if size slot.toNat = 0 ∨ size slot.toNat > pageSize then .ok (s.write (chars invalidSize))
  else do
    let tasks ← exec slot (size slot.toNat) s.tasks
    .ok ({ s with tasks }.write (chars launched))

def shellSpawnkthread (m : Machine) (slot : ℤ) (s : Session) : Kernel Session :=
  shellLaunch maxTestProcs "spawntsk -k: slot must be 1..6\n" "spawntsk -k: invalid function size\n"
    "spawntsk -k: launched\n" m.kthreadSize (fun slot size tasks => do
      let env ← m.memory tasks
      .ok (execFn env (m.procCodeBuf (slot - 1).toNat) size tasks)) slot s

def shellSpawnuser (m : Machine) (slot : ℤ) (s : Session) : Kernel Session :=
  shellLaunch maxUtestProcs "spawntsk -u: slot must be 1..6\n" "spawntsk -u: invalid function size\n"
    "spawntsk -u: launched\n" m.userSize (fun _ size tasks => do
      let env ← m.memory tasks
      .ok (execUserFn env size tasks.initProc tasks)) slot s

def shellSpawn (m : Machine) (user : Bool) (slot : ℤ) (s : Session) : Kernel Session :=
  if user then shellSpawnuser m slot s else shellSpawnkthread m slot s

/-- Without a slot, all of them. -/
def shellSpawntsk (m : Machine) (user : Bool) (slot : Option (BitVec 32)) (s : Session) : Kernel Session :=
  match slot with
  | some slot => shellSpawn m user slot.toInt s
  | none => (List.range (if user then maxUtestProcs else maxTestProcs)).foldlM (fun s i => shellSpawn m user ((i + 1 : ℕ) : ℤ) s) s

/-! ### Reports -/

/-- `terminal_write_uint` and `terminal_write_hex`, whose buffers never run over. -/
def writeUint (m : Machine) (value : BitVec 32) (v : Display) : Display := (terminalWriteUint value m.junk v).getD v

def writeHex (m : Machine) (value : BitVec 32) (v : Display) : Display := (terminalWriteHex value m.junk v).getD v

def shellMemdump (m : Machine) (v : Display) : Display :=
  let v := terminalWrite (chars "#### memory dump ####\n") v
  let v := terminalWrite (chars "kmalloc (chunk pool): zone=") v
  let v := writeHex m 0xD0000000 v
  let v := terminalWrite (chars " | ") v
  let v := writeUint m m.poolPages v
  let v := terminalWrite (chars " pages | ") v
  let v := writeUint m m.freeObjects v
  let v := terminalWrite (chars " free objects\n") v
  let v := terminalWrite (chars "vmalloc: zone=") v
  let v := writeHex m (BitVec.ofNat 32 AddressMap.vmallocBase) v
  let v := terminalWrite (chars "-") v
  let v := writeHex m (BitVec.ofNat 32 AddressMap.vmallocMax) v
  let v := terminalWrite (chars " | ") v
  let v := writeUint m m.usedPages v
  let v := terminalWrite (chars "/") v
  let v := writeUint m m.totalPages v
  terminalWrite (chars " pages used\n") v

def stateStr : TaskState → List Byte
  | .runnable => chars "RUNNABLE"
  | .running => chars "RUNNING"
  | .blocked => chars "BLOCKED"
  | .zombie => chars "ZOMBIE"
  | .stopped => chars "STOPPED"

/-- `if (t->parent)` -/
def momentumPpid (m : Machine) (s : KState) (v : Display) : Display :=
  match s.current.parent with
  | some p => terminalPutchar 10 (writeUint m (BitVec.ofNat 32 (s.task p).pid) (terminalWrite (chars "ppid:       ") v))
  | none => v

/-- `if (t->thread.tf)` -/
def momentumTf (m : Machine) (s : KState) (v : Display) : Display :=
  if m.threadTf s.currentTask ≠ 0 then writeHex m (m.threadTf s.currentTask) v
  else terminalWrite (chars "(null, not preempted)") v

def shellMomentum (m : Machine) (s : KState) (v : Display) : Display :=
  let t := s.current
  let v := terminalWrite (chars "#### current execution context ####\n") v
  let v := terminalPutchar 10 (writeUint m (BitVec.ofNat 32 t.pid) (terminalWrite (chars "pid:        ") v))
  let v := momentumPpid m s v
  let v := writeUint m (BitVec.ofNat 32 t.uid) (terminalWrite (chars "uid:        ") v)
  let v := terminalPutchar 10 (writeUint m (BitVec.ofNat 32 t.euid) (terminalWrite (chars "  euid: ") v))
  let v := terminalPutchar 10 (terminalWrite (stateStr t.state) (terminalWrite (chars "state:      ") v))
  let v := writeUint m (BitVec.ofNat 32 t.timeLeft) (terminalWrite (chars "quantum:    ") v)
  let v := terminalWrite (chars " ticks\n") (writeUint m (BitVec.ofNat 32 t.quantum) (terminalWrite (chars " / ") v))
  let v := terminalPutchar 10 (writeHex m (m.threadEsp s.currentTask) (terminalWrite (chars "thread.esp: ") v))
  let v := terminalPutchar 10 (writeHex m m.liveEsp (terminalWrite (chars "live esp:   ") v))
  let v := terminalPutchar 10 (momentumTf m s (terminalWrite (chars "thread.tf:  ") v))
  let v := terminalPutchar 10 (writeHex m (BitVec.ofNat 32 t.mm.pgdir) (terminalWrite (chars "cr3:        ") v))
  let v := writeHex m (BitVec.ofNat 32 t.mm.codeStart) (terminalWrite (chars "code:       ") v)
  let v := terminalPutchar 10 (writeHex m (BitVec.ofNat 32 t.mm.codeEnd) (terminalWrite (chars " - ") v))
  terminalPutchar 10 (writeHex m (BitVec.ofNat 32 t.mm.stackTop) (terminalWrite (chars "stack_top:  ") v))

/-! ### `shell_execute` -/

/-- The text of a line as the bytes that `task_feed` is given. -/
def feedBytes (text : List Byte) : List ℕ := text.map BitVec.toNat

/-- What `kmem_alloc` answers in `task_feed`, if the task is there and has no buffer yet. -/
def feedBuffer (m : Machine) (pid : BitVec 32) (s : KState) : Kernel (Option (ℕ → ℕ)) := do
  let r ← ended (feedTarget m.fuel pid.toNat s)
  match r with
  | none => .ok none
  | some t => if (s.task t).inBuf = none then m.inBuf.map some else .ok none

def shellPfeed (m : Machine) (pid : BitVec 32) (text : List Byte) (s : Session) : Kernel Session := do
  let buf ← feedBuffer m pid s.tasks
  let r ← taskFeed m.fuel buf pid.toNat (feedBytes text) s.tasks
  let s := { s with tasks := r.2 }
  .ok (if r.1 ≠ 0 then s.write (chars "pfeed: no such pid or out of memory\n") else s)

def shellPlog (m : Machine) (pid : BitVec 32) (s : Session) : Kernel Session := do
  let v ← taskDumpLog m.fuel pid.toNat s.tasks s.shell.display
  .ok (s.onDisplay fun _ => v)

def shellTraptest (m : Machine) (s : Session) : Kernel Session := do
  let s := s.write (chars "triggering INT 0x42 (trap frame test)...\n")
  let messages ← m.trapMessages
  let s := { s with log := printString messages s.log }
  .ok (s.write (chars "returned from trap, trap frame OK\n"))

def setKeymap (layout : Keymap) (s : Session) : Session := { s with activeKeymap := layout }

def keymapMessage : Keymap → List Byte
  | .azerty => chars "keymap: azerty\n"
  | .qwerty => chars "keymap: qwerty\n"

/-- A command; those that stop the machine or run into a panic do not come back. -/
def perform (m : Machine) (s : Session) : Command → Kernel Session
  | .reboot => .error .spin
  | .shutdown => .error .spin
  | .halt => .error .spin
  | .help => .ok (s.write shellHelp)
  | .man => .ok (s.write (chars "man: basic manual pages available in v0.5.0; use 'def <cmd>' for now\n"))
  | .explain arg => .ok (s.write (shellDef arg))
  | .clear => .ok (s.onDisplay terminalClear)
  | .momentum => .ok (s.onDisplay (shellMomentum m s.tasks))
  | .dmesg => .ok (s.onDisplay (dmesg s.log))
  | .plog pid => shellPlog m pid s
  | .pfeed pid text => shellPfeed m pid text s
  | .memdump => .ok (s.onDisplay (shellMemdump m))
  | .traptest => shellTraptest m s
  | .keymap layout => .ok ((setKeymap layout s).write (keymapMessage layout))
  | .eyeproc => do
    let v ← ended (shellEyeproc s.tasks m.readings s.shell.display)
    .ok (s.onDisplay fun _ => v)
  | .spawntsk user slot => shellSpawntsk m user slot s
  | .kill pid sig => shellKill m pid sig s
  | .signal pid sig => shellSignal m pid sig s
  | .usage message => .ok (s.write message)
  | .unknown cmd => .ok (((s.write (chars "unknown command: ")).write cmd).write (chars "\ntype 'help' for available commands.\n"))
  | .empty => .ok s

def shellExecute (m : Machine) (cmd : List Byte) (s : Session) : Kernel Session := do
  let t ← perform m s (shellCommand cmd)
  -- `shell_eyeproc` has printed the prompt itself
  .ok (if shellCommand cmd = .eyeproc then t else t.onDisplay shellPrintPrompt)

/-- `shell_add_char`, with the call of `shell_execute`. -/
def addChar (m : Machine) (c : Byte) (s : Session) : Kernel Session :=
  if c = 10 then do
    let buf := Function.update s.shell.cmdBuffer s.shell.cmdIndex 0
    let s := { s with shell := ⟨buf, s.shell.cmdIndex, terminalPutchar 10 s.shell.display⟩ }
    let cmd ← ended (readString buf cmdBufferSize 0)
    let t ← shellExecute m cmd s
    .ok { t with shell := { t.shell with cmdIndex := 0 } }
  else .ok { s with shell := shellAddChar (fun _ v => v) c s.shell }

/-! ### The keyboard interrupt -/

def keymapQwerty : List Byte :=
  [0, 27] ++ chars "1234567890-=" ++ [8, 9] ++ chars "qwertyuiop[]" ++ [10, 0] ++ chars "asdfghjkl;'`" ++ [0] ++
    chars "\\zxcvbnm,./" ++ [0] ++ chars "*" ++ [0] ++ chars " " ++ List.replicate 70 0

def keymapAzerty : List Byte :=
  [0, 27] ++ chars "&" ++ [0] ++ chars "\"'(-" ++ [0] ++ chars "_" ++ [0, 0] ++ chars ")=" ++ [8, 9] ++ chars "azertyuiop^$" ++
    [10, 0] ++ chars "qsdfghjklm" ++ [0, 0, 0] ++ chars "*wxcvbn,;:!" ++ [0] ++ chars "*" ++ [0] ++ chars " " ++
    List.replicate 70 0

def keymapTable : Keymap → List Byte
  | .qwerty => keymapQwerty
  | .azerty => keymapAzerty

/-- The lines that an extended key scrolls by. -/
def arrowLines (scancode : Byte) : Option ℤ :=
  if scancode = 0x48 then some (-1)
  else if scancode = 0x50 then some 1
  else if scancode = 0x49 then some (-usableRows)
  else if scancode = 0x51 then some usableRows
  else none

/-- `case 33` of `irq_handler`, where the reading is what the two ports return. -/
def irqKeyboard (m : Machine) (r : Reading) (s : Session) : Kernel Session :=
  if r.status &&& 1 = 0 then .ok s
  else if r.scancode = 0xE0 then .ok { s with extended := true }
  else if s.extended then
    let s := { s with extended := false }
    if r.scancode &&& 0x80 = 0 then
      match arrowLines r.scancode with
      | some delta => .ok (s.onDisplay (terminalScrollLines delta))
      | none => .ok s
    else .ok s
  else if r.scancode &&& 0x80 = 0 then
    let s := s.onDisplay terminalScrollReset
    let c := (keymapTable s.activeKeymap).getD r.scancode.toNat 0
    if c ≠ 0 then addChar m c s else .ok s
  else .ok s

end HekaOS.Sessions
