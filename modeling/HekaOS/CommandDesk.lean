import HekaOS.KernelTriples
import HekaOS.ShellSession
import HekaOS.TerminalView

/-!
# The commands without the screen

A `Desk` keeps what the commands work on: the line as a text, and nothing of the screen and the buffer. The
session does to it what the desk does by itself.
-/

namespace HekaOS.Sessions
open KernelMemory KernelTriples PointerChain Tasks Vga

structure Desk where
  extended : Bool
  activeKeymap : Keymap
  line : List Byte
  log : KernelLog
  tasks : KState

/-- The line that the buffer holds. -/
def lineOf (cmdBuffer : ℕ → Byte) (cmdIndex : ℕ) : List Byte := (List.range cmdIndex).map cmdBuffer

def Session.desk (s : Session) : Desk :=
  ⟨s.extended, s.activeKeymap, lineOf s.shell.cmdBuffer s.shell.cmdIndex, s.log, s.tasks⟩

/-- ESC is pressed, and not behind a prefix. -/
def escapes : Bool → List Reading → Bool
  | _, [] => false
  | extended, r :: rs =>
    if r.status &&& 1 = 0 then escapes extended rs
    else if r.scancode = 0xE0 then escapes true rs
    else if extended then escapes false rs
    else r.scancode == 1 || escapes false rs

/-- A test program is started, if there is one in the slot. -/
def launch (max : ℕ) (size : ℕ → ℕ) (exec : ℤ → ℕ → KState → Kernel KState) (slot : ℤ) (s : KState) : Kernel KState :=
  if slot < 1 ∨ slot > max ∨ size slot.toNat = 0 ∨ size slot.toNat > pageSize then .ok s else exec slot (size slot.toNat) s

def spawnTask (m : Machine) (user : Bool) (slot : ℤ) (s : KState) : Kernel KState :=
  if user then launch maxUtestProcs m.userSize (fun _ size s => do
      let env ← m.memory s
      .ok (execUserFn env size s.initProc s)) slot s
  else launch maxTestProcs m.kthreadSize (fun slot size s => do
      let env ← m.memory s
      .ok (execFn env (m.procCodeBuf (slot - 1).toNat) size s)) slot s

def spawnTasks (m : Machine) (user : Bool) (slot : Option (BitVec 32)) (s : KState) : Kernel KState :=
  match slot with
  | some slot => spawnTask m user slot.toInt s
  | none => (List.range 6).foldlM (fun s i => spawnTask m user ((i + 1 : ℕ) : ℤ) s) s

namespace Desk

/-- New tasks on the desk. -/
def withTasks (d : Desk) (q : Kernel KState) : Kernel Desk := do
  let tasks ← q
  .ok { d with tasks }

/-- Something is done to the task that has the pid, if there is one and the signal exists. -/
def onTask (m : Machine) (pid signum : BitVec 32) (f : ℕ → Desk → Desk) (d : Desk) : Kernel Desk :=
  if badSignum signum then .ok d
  else do
    let t ← ended (shellFindTask m.fuel pid d.tasks)
    match t with
    | none => .ok d
    | some t => .ok (f t d)

def kill (m : Machine) (pid signum : BitVec 32) (d : Desk) : Kernel Desk :=
  d.onTask m pid signum fun t d => { d with
    tasks := kernelSignalSend t signum.toNat d.tasks
    log := prInfo "kill: sent sig %d to pid %u\n" [signum, pid] d.log }

/-- The handler that `signal` installs. -/
def handler (m : Machine) (user : Bool) : ℕ := if user then userCodeBase + m.uhandlerOffset else m.shellDebugSigHandler

def signal (m : Machine) (pid signum : BitVec 32) (d : Desk) : Kernel Desk :=
  d.onTask m pid signum fun t d =>
    if sigmask signum.toNat &&& sigImmutableMask ≠ 0 then
      { d with log := prWarn "signal: sig %d disposition is immutable on pid %u\n" [signum, pid] d.log }
    else
      let isUserspace := (d.tasks.task t).isUserspace
      { d with
        tasks := kernelSignalRegister t signum.toNat (handler m isUserspace) d.tasks
        log := prInfo "signal: installed %s handler for sig %d on pid %u\n" [if isUserspace then 1 else 2, signum, pid]
          d.log }

/-- What a command does to the layout, the log and the tasks. -/
def perform (m : Machine) (d : Desk) : Command → Kernel Desk
  | .reboot => .error .spin
  | .shutdown => .error .spin
  | .halt => .error .spin
  | .plog pid => do
    let _ ← ended (dumpTarget m.fuel pid.toNat d.tasks)
    .ok d
  | .pfeed pid text => do
    let buf ← feedBuffer m pid d.tasks
    let r ← taskFeed m.fuel buf pid.toNat (feedBytes text) d.tasks
    .ok { d with tasks := r.2 }
  | .traptest => do
    let messages ← m.trapMessages
    .ok { d with log := printString messages d.log }
  | .keymap layout => .ok { d with activeKeymap := layout }
  | .eyeproc => if escapes false m.readings then .ok d else .error .spin
  | .spawntsk user slot => d.withTasks (spawnTasks m user slot d.tasks)
  | .kill pid sig => d.kill m pid sig
  | .signal pid sig => d.signal m pid sig
  | _ => .ok d

/-- A character is typed, and Enter carries out the line. -/
def type (m : Machine) (c : Byte) (d : Desk) : Kernel Desk :=
  if c = 10 then do
    let u ← d.perform m (shellCommand d.line)
    .ok { u with line := [] }
  else .ok { d with line := editLine d.line c }

/-- A byte comes from the keyboard. -/
def read (m : Machine) (r : Reading) (d : Desk) : Kernel Desk :=
  if r.status &&& 1 = 0 then .ok d
  else if r.scancode = 0xE0 then .ok { d with extended := true }
  else if d.extended then .ok { d with extended := false }
  else if r.scancode &&& 0x80 = 0 then
    let c := (keymapTable d.activeKeymap).getD r.scancode.toNat 0
    if c ≠ 0 then d.type m c else .ok d
  else .ok d

end Desk

variable {m : Machine} {s u : Session} {d : Desk} {c : Byte} {r : Kernel Session} {q : Kernel Desk} {v : Display} {t : Terminal}
  {cs : List Byte}

/-! ### The commands -/

/-- `d` is the desk of `u`. -/
structure Agrees (u : Session) (d : Desk) : Prop where
  extended : u.extended = d.extended
  keymap : u.activeKeymap = d.activeKeymap
  line : lineOf u.shell.cmdBuffer u.shell.cmdIndex = d.line
  log : u.log = d.log
  tasks : u.tasks = d.tasks

theorem Agrees.desk (h : Agrees u d) : u.desk = d := by
  obtain ⟨hextended, hkeymap, hline, hlog, htasks⟩ := h
  unfold Session.desk
  rw [hextended, hkeymap, hline, hlog, htasks]

theorem onDisplay_display (f : Display → Display) (s : Session) : (s.onDisplay f).shell.display = f s.shell.display := rfl

theorem onDisplay_line (f : Display → Display) (s : Session) :
    (s.onDisplay f).shell.cmdBuffer = s.shell.cmdBuffer ∧ (s.onDisplay f).shell.cmdIndex = s.shell.cmdIndex := ⟨rfl, rfl⟩

theorem onDisplay_agrees (f : Display → Display) (s : Session) : Agrees (s.onDisplay f) s.desk := ⟨rfl, rfl, rfl, rfl, rfl⟩

/-- A command in `s` ends as it does on the desk, and the line is left alone. -/
structure Serves (s : Session) (r : Kernel Session) (q : Kernel Desk) : Prop where
  desk : r.map Session.desk = q
  line : Ensures r fun u => u.shell.cmdBuffer = s.shell.cmdBuffer ∧ u.shell.cmdIndex = s.shell.cmdIndex
  seen : Ensures r fun u => Seen u.shell.display

theorem serves_error (e : Stop) : Serves s (.error e) (.error e) := ⟨rfl, ensures_error e, ensures_error e⟩

theorem serves_ok (hdesk : Agrees u d)
    (hline : u.shell.cmdBuffer = s.shell.cmdBuffer ∧ u.shell.cmdIndex = s.shell.cmdIndex) (hseen : Seen u.shell.display) :
    Serves s (.ok u) (.ok d) := ⟨congrArg Except.ok hdesk.desk, ensures_ok hline, ensures_ok hseen⟩

/-- A command that only prints. -/
theorem serves_print {f : Display → Display} (h : Seen (f s.shell.display)) : Serves s (.ok (s.onDisplay f)) (.ok s.desk) :=
  serves_ok (onDisplay_agrees f s) ⟨rfl, rfl⟩ h

theorem serves_write (h : Seen s.shell.display) (l : List Byte) : Serves s (.ok (s.write l)) (.ok s.desk) :=
  serves_print (h.write l)

/-- Something is printed after a command. -/
theorem Serves.write (h : Serves s (.ok u) q) (l : List Byte) : Serves s (.ok (u.write l)) q := by
  obtain ⟨hdesk, hline, hseen⟩ := h
  have hwritten : Seen (u.write l).shell.display := (hseen u rfl).write l
  exact ⟨hdesk, ensures_ok (hline u rfl), ensures_ok hwritten⟩

theorem serves_bind {α : Type} {x : Kernel α} {f : α → Kernel Session} {g : α → Kernel Desk} (h : ∀ a, Serves s (f a) (g a)) :
    Serves s (x >>= f) (x >>= g) := by
  cases x with
  | error e => exact serves_error e
  | ok a => exact h a

/-- Another command follows. -/
theorem Serves.bind {f : Session → Kernel Session} {g : Desk → Kernel Desk} (h : Serves s r q)
    (hf : ∀ u, Seen u.shell.display → Serves u (f u) (g u.desk)) : Serves s (r >>= f) (q >>= g) := by
  obtain ⟨hdesk, hline, hseen⟩ := h
  rw [← hdesk]
  cases r with
  | error e => exact serves_error e
  | ok u =>
    obtain ⟨hdesk', hline', hseen'⟩ := hf u (hseen u rfl)
    obtain ⟨hbuffer, hindex⟩ := hline u rfl
    refine ⟨hdesk', fun v hv => ?_, hseen'⟩
    obtain ⟨hbuffer', hindex'⟩ := hline' v hv
    exact ⟨hbuffer'.trans hbuffer, hindex'.trans hindex⟩

theorem seen_memdump (h : Seen v) (m : Machine) : Seen (shellMemdump m v) := by
  have hpool := ((((((h.write (chars "#### memory dump ####\n")).write (chars "kmalloc (chunk pool): zone=")).hex
    0xD0000000 m.junk).write (chars " | ")).uint m.poolPages m.junk).write (chars " pages | ")).uint m.freeObjects m.junk
  have hzone := ((((hpool.write (chars " free objects\n")).write (chars "vmalloc: zone=")).hex
    (BitVec.ofNat 32 AddressMap.vmallocBase) m.junk).write (chars "-")).hex (BitVec.ofNat 32 AddressMap.vmallocMax) m.junk
  exact ((((hzone.write (chars " | ")).uint m.usedPages m.junk).write (chars "/")).uint m.totalPages m.junk).write _

theorem seen_momentumPpid (h : Seen v) (m : Machine) (s : KState) : Seen (momentumPpid m s v) := by
  unfold momentumPpid
  cases s.current.parent with
  | none => exact h
  | some p => exact ((h.write _).uint _ m.junk).putchar 10

theorem seen_momentumTf (h : Seen v) (m : Machine) (s : KState) : Seen (momentumTf m s v) := by
  unfold momentumTf
  split
  · exact h.hex _ m.junk
  · exact h.write _

theorem seen_momentum (h : Seen v) (m : Machine) (s : KState) : Seen (shellMomentum m s v) := by
  have hpid := (((h.write (chars "#### current execution context ####\n")).write (chars "pid:        ")).uint
    (BitVec.ofNat 32 s.current.pid) m.junk).putchar 10
  have hppid := seen_momentumPpid hpid m s
  have huid := (((hppid.write (chars "uid:        ")).uint (BitVec.ofNat 32 s.current.uid) m.junk).write
    (chars "  euid: ")).uint (BitVec.ofNat 32 s.current.euid) m.junk
  have hstate := (((huid.putchar 10).write (chars "state:      ")).write (stateStr s.current.state)).putchar 10
  have hquantum := (((hstate.write (chars "quantum:    ")).uint (BitVec.ofNat 32 s.current.timeLeft) m.junk).write
    (chars " / ")).uint (BitVec.ofNat 32 s.current.quantum) m.junk
  have hesp := (((hquantum.write (chars " ticks\n")).write (chars "thread.esp: ")).hex (m.threadEsp s.currentTask) m.junk).putchar 10
  have hlive := ((hesp.write (chars "live esp:   ")).hex m.liveEsp m.junk).putchar 10
  have htf := (seen_momentumTf (hlive.write (chars "thread.tf:  ")) m s).putchar 10
  have hcr3 := ((htf.write (chars "cr3:        ")).hex (BitVec.ofNat 32 s.current.mm.pgdir) m.junk).putchar 10
  have hcode := (((hcr3.write (chars "code:       ")).hex (BitVec.ofNat 32 s.current.mm.codeStart) m.junk).write
    (chars " - ")).hex (BitVec.ofNat 32 s.current.mm.codeEnd) m.junk
  exact (((hcode.putchar 10).write (chars "stack_top:  ")).hex (BitVec.ofNat 32 s.current.mm.stackTop) m.junk).putchar 10

theorem seen_dmesg (h : Seen v) (g : KernelLog) : Seen (dmesg g v) := by
  unfold dmesg
  exact Seen.foldl (fun v i hv => hv.putchar _) _ h

theorem serves_onTask (h : Seen s.shell.display) (invalid notFound : String) (pid signum : BitVec 32)
    {f : ℕ → Session → Session} {g : ℕ → Desk → Desk} (hf : ∀ t, Serves s (.ok (f t s)) (.ok (g t s.desk))) :
    Serves s (onTask m invalid notFound pid signum f s) (s.desk.onTask m pid signum g) := by
  unfold onTask Desk.onTask
  split
  · exact serves_write h _
  · apply serves_bind
    intro t
    cases t with
    | none => exact serves_write h _
    | some t => exact hf t

theorem serves_kill (h : Seen s.shell.display) (pid sig : BitVec 32) :
    Serves s (shellKill m pid sig s) (s.desk.kill m pid sig) := by
  unfold shellKill Desk.kill
  apply serves_onTask h
  intro t
  exact serves_ok ⟨rfl, rfl, rfl, rfl, rfl⟩ ⟨rfl, rfl⟩ h

theorem serves_signal (h : Seen s.shell.display) (pid sig : BitVec 32) :
    Serves s (shellSignal m pid sig s) (s.desk.signal m pid sig) := by
  unfold shellSignal Desk.signal
  apply serves_onTask h
  intro t
  by_cases himmutable : sigmask sig.toNat &&& sigImmutableMask ≠ 0
  · rw [if_pos himmutable, if_pos himmutable]
    exact serves_ok ⟨rfl, rfl, rfl, rfl, rfl⟩ ⟨rfl, rfl⟩ h
  · rw [if_neg himmutable, if_neg himmutable]
    exact serves_ok ⟨rfl, rfl, rfl, rfl, rfl⟩ ⟨rfl, rfl⟩ h

theorem serves_pfeed (h : Seen s.shell.display) (pid : BitVec 32) (text : List Byte) :
    Serves s (shellPfeed m pid text s) (s.desk.perform m (.pfeed pid text)) := by
  unfold shellPfeed Desk.perform
  apply serves_bind
  intro buf
  apply serves_bind
  intro r
  dsimp only
  have hfed : Serves s (.ok { s with tasks := r.2 }) (.ok { s.desk with tasks := r.2 }) :=
    serves_ok ⟨rfl, rfl, rfl, rfl, rfl⟩ ⟨rfl, rfl⟩ h
  split
  · exact hfed.write _
  · exact hfed

/-- Whatever `plog` finds, it prints a text. -/
theorem taskDumpLog_prints {fuel pid : ℕ} {tasks : KState} {target : Option ℕ} (h : dumpTarget fuel pid tasks = some target)
    (v : Display) : ∃ l, taskDumpLog fuel pid tasks v = .ok (terminalWrite l v) := by
  unfold taskDumpLog
  rw [h]
  cases target with
  | none => exact ⟨_, rfl⟩
  | some t =>
    cases hbuf : (tasks.task t).logBuf with
    | none =>
      refine ⟨[], ?_⟩
      simp only [ended, ok_bind, hbuf]
      rfl
    | some buf =>
      by_cases hlen : (tasks.task t).logLen = 0
      · refine ⟨[], ?_⟩
        simp only [ended, ok_bind, hbuf, if_pos hlen]
        rfl
      · refine ⟨(List.range (tasks.task t).logLen).map fun i =>
          logByte (buf ((logStart (tasks.task t) + i) &&& (taskLogSize - 1))), ?_⟩
        simp only [ended, ok_bind, hbuf, if_neg hlen, terminalWrite, List.foldl_map]

theorem serves_plog (h : Seen s.shell.display) (pid : BitVec 32) :
    Serves s (shellPlog m pid s) (s.desk.perform m (.plog pid)) := by
  have hdesk : s.desk.perform m (.plog pid) = ended (dumpTarget m.fuel pid.toNat s.tasks) >>= fun _ => .ok s.desk := rfl
  unfold shellPlog
  rw [hdesk]
  cases htarget : dumpTarget m.fuel pid.toNat s.tasks with
  | none =>
    unfold taskDumpLog
    rw [htarget]
    exact serves_error .spin
  | some t =>
    obtain ⟨l, hprints⟩ := taskDumpLog_prints htarget s.shell.display
    rw [hprints]
    exact serves_print (h.write l)

/-- The tasks have become others, and something was printed. -/
theorem serves_redrawn (h : Seen s.shell.display) (tasks : KState) (l : List Byte) :
    Serves s (.ok ({ s with tasks }.write l)) (.ok { s.desk with tasks }) :=
  serves_ok ⟨rfl, rfl, rfl, rfl, rfl⟩ ⟨rfl, rfl⟩ (h.write l)

theorem serves_launch (h : Seen s.shell.display) (max : ℕ) (invalidSlot invalidSize launched : String) (size : ℕ → ℕ)
    (exec : ℤ → ℕ → KState → Kernel KState) (slot : ℤ) :
    Serves s (shellLaunch max invalidSlot invalidSize launched size exec slot s)
      (s.desk.withTasks (launch max size exec slot s.tasks)) := by
  unfold shellLaunch launch
  by_cases hslot : slot < 1 ∨ slot > max
  · rw [if_pos hslot, if_pos (by omega)]
    exact serves_redrawn h s.tasks _
  · rw [if_neg hslot]
    by_cases hsize : size slot.toNat = 0 ∨ size slot.toNat > pageSize
    · rw [if_pos hsize, if_pos (by omega)]
      exact serves_redrawn h s.tasks _
    · rw [if_neg hsize, if_neg (by omega)]
      exact serves_bind fun tasks => serves_redrawn h tasks _

theorem serves_spawn (h : Seen s.shell.display) (user : Bool) (slot : ℤ) :
    Serves s (shellSpawn m user slot s) (s.desk.withTasks (spawnTask m user slot s.tasks)) := by
  cases user with
  | false =>
    rw [shellSpawn, spawnTask, if_neg Bool.false_ne_true, if_neg Bool.false_ne_true, shellSpawnkthread]
    exact serves_launch h _ _ _ _ _ _ slot
  | true =>
    rw [shellSpawn, spawnTask, if_pos rfl, if_pos rfl, shellSpawnuser]
    exact serves_launch h _ _ _ _ _ _ slot

theorem serves_spawns (h : Seen s.shell.display) (user : Bool) (l : List ℕ) :
    Serves s (l.foldlM (fun s i => shellSpawn m user ((i + 1 : ℕ) : ℤ) s) s)
      (s.desk.withTasks (l.foldlM (fun s i => spawnTask m user ((i + 1 : ℕ) : ℤ) s) s.tasks)) := by
  induction l generalizing s with
  | nil => exact serves_ok ⟨rfl, rfl, rfl, rfl, rfl⟩ ⟨rfl, rfl⟩ h
  | cons i l ih =>
    let rest : Desk → Kernel Desk := fun d =>
      d.withTasks (l.foldlM (fun s i => spawnTask m user ((i + 1 : ℕ) : ℤ) s) d.tasks)
    have hfirst := serves_spawn (m := m) h user ((i + 1 : ℕ) : ℤ)
    have hall := hfirst.bind (g := rest) fun u hu => ih hu
    rw [List.foldlM_cons, List.foldlM_cons]
    have hdesk : s.desk.withTasks (spawnTask m user ((i + 1 : ℕ) : ℤ) s.tasks) >>= rest = s.desk.withTasks
        (spawnTask m user ((i + 1 : ℕ) : ℤ) s.tasks >>= fun t =>
          l.foldlM (fun s i => spawnTask m user ((i + 1 : ℕ) : ℤ) s) t) := by
      cases spawnTask m user ((i + 1 : ℕ) : ℤ) s.tasks with
      | error e => rfl
      | ok t => rfl
    rw [← hdesk]
    exact hall

theorem serves_spawntsk (h : Seen s.shell.display) (user : Bool) (slot : Option (BitVec 32)) :
    Serves s (shellSpawntsk m user slot s) (s.desk.perform m (.spawntsk user slot)) := by
  have hdesk : s.desk.perform m (.spawntsk user slot) = s.desk.withTasks (spawnTasks m user slot s.tasks) := rfl
  rw [hdesk]
  cases slot with
  | some slot => exact serves_spawn h user slot.toInt
  | none =>
    have hall : (if user then maxUtestProcs else maxTestProcs) = 6 := by cases user <;> rfl
    unfold shellSpawntsk spawnTasks
    rw [hall]
    exact serves_spawns h user _

theorem serves_logged (h : Seen s.shell.display) (l messages l' : List Byte) :
    Serves s (.ok ({ s.write l with log := printString messages (s.write l).log }.write l'))
      (.ok { s.desk with log := printString messages s.log }) := by
  have hlogged : Serves s (.ok { s.write l with log := printString messages s.log })
      (.ok { s.desk with log := printString messages s.log }) :=
    serves_ok ⟨rfl, rfl, rfl, rfl, rfl⟩ ⟨rfl, rfl⟩ (h.write l)
  exact hlogged.write l'

/-- Each command but `eyeproc`, which prints the prompt itself. -/
theorem serves_perform (h : Seen s.shell.display) {c : Command} (hc : c ≠ .eyeproc) :
    Serves s (perform m s c) (s.desk.perform m c) := by
  cases c with
  | reboot => exact serves_error .spin
  | shutdown => exact serves_error .spin
  | halt => exact serves_error .spin
  | help => exact serves_write h _
  | man => exact serves_write h _
  | explain arg => exact serves_write h _
  | clear => exact serves_print (seen_clear _)
  | momentum => exact serves_print (seen_momentum h m s.tasks)
  | dmesg => exact serves_print (seen_dmesg h s.log)
  | plog pid => exact serves_plog h pid
  | pfeed pid text => exact serves_pfeed h pid text
  | memdump => exact serves_print (seen_memdump h m)
  | traptest =>
    unfold perform shellTraptest Desk.perform
    exact serves_bind fun messages => serves_logged h _ messages _
  | keymap layout =>
    have hset : Serves s (.ok (setKeymap layout s)) (.ok { s.desk with activeKeymap := layout }) :=
      serves_ok ⟨rfl, rfl, rfl, rfl, rfl⟩ ⟨rfl, rfl⟩ h
    exact hset.write _
  | eyeproc => exact absurd rfl hc
  | spawntsk user slot => exact serves_spawntsk h user slot
  | kill pid sig => exact serves_kill h pid sig
  | signal pid sig => exact serves_signal h pid sig
  | usage message => exact serves_write h _
  | unknown cmd => exact ((serves_write h _).write _).write _
  | empty => exact serves_ok ⟨rfl, rfl, rfl, rfl, rfl⟩ ⟨rfl, rfl⟩ h

/-! ### The end of `eyeproc` -/

theorem loop_of_quit {procs : List Task} {rs : List Reading} {n : Monitor} (h : n.quit = true) : n.loop procs rs = some n := by
  cases rs with
  | nil => rw [Monitor.loop, if_pos h]
  | cons r rs => rw [Monitor.loop, if_pos h]

/-- `eyeproc` comes to an end if ESC is pressed. -/
theorem loop_isSome (procs : List Task) (rs : List Reading) (n : Monitor) (h : n.quit = false) :
    (n.loop procs rs).isSome = escapes n.extended rs := by
  induction rs generalizing n with
  | nil =>
    rw [Monitor.loop, h, escapes]
    rfl
  | cons r rs ih =>
    have hgoes : n.loop procs (r :: rs) = (n.round procs r).loop procs rs := by
      rw [Monitor.loop, h]
      rfl
    rw [hgoes, escapes]
    unfold Monitor.round
    by_cases hready : r.status &&& 1 = 0
    · rw [if_pos hready, if_pos hready]
      exact ih n h
    rw [if_neg hready, if_neg hready]
    by_cases hcode : r.scancode = 0xE0
    · rw [if_pos hcode, if_pos hcode]
      exact ih _ h
    rw [if_neg hcode, if_neg hcode]
    by_cases hextended : n.extended = true
    · rw [if_pos hextended, if_pos hextended]
      dsimp only
      split
      · split
        · exact ih _ h
        · split
          · exact ih _ h
          · exact ih _ h
      · exact ih _ h
    rw [if_neg hextended, if_neg hextended]
    rw [Bool.not_eq_true] at hextended
    by_cases hesc : r.scancode = 1
    · have hpress : r.scancode &&& 0x80 = 0 ∧ r.scancode = 1 := ⟨by rw [hesc]; decide, hesc⟩
      rw [if_pos hpress, loop_of_quit rfl, hesc]
      rfl
    · have hother : ¬(r.scancode &&& 0x80 = 0 ∧ r.scancode = 1) := fun hpress => hesc hpress.2
      rw [if_neg hother, ih n h, hextended, beq_eq_false_iff_ne.mpr hesc, Bool.false_or]

/-! ### A line is carried out -/

/-- The command of a line ends as it does on the desk, and the prompt is printed. -/
structure Executes (s : Session) (r : Kernel Session) (q : Kernel Desk) : Prop where
  desk : r.map Session.desk = q
  line : Ensures r fun u => u.shell.cmdBuffer = s.shell.cmdBuffer ∧ u.shell.cmdIndex = s.shell.cmdIndex
  prompt : Ensures r fun u => ∃ t, OnScreen u.shell.display (prompted t)

theorem executes_error (e : Stop) : Executes s (.error e) (.error e) := ⟨rfl, ensures_error e, ensures_error e⟩

theorem executes_ok (hdesk : Agrees u d)
    (hline : u.shell.cmdBuffer = s.shell.cmdBuffer ∧ u.shell.cmdIndex = s.shell.cmdIndex)
    (hprompt : OnScreen u.shell.display (prompted t)) : Executes s (.ok u) (.ok d) :=
  ⟨congrArg Except.ok hdesk.desk, ensures_ok hline, ensures_ok ⟨t, hprompt⟩⟩

theorem executes_eyeproc (s : Session) : Executes s (perform m s .eyeproc) (s.desk.perform m .eyeproc) := by
  have hends := loop_isSome (eyeprocTasks s.tasks) m.readings (Monitor.start (eyeprocTasks s.tasks) s.shell.display) rfl
  have hstart : (Monitor.start (eyeprocTasks s.tasks) s.shell.display).extended = false := rfl
  rw [hstart] at hends
  unfold perform Desk.perform shellEyeproc
  rw [← hends]
  cases (Monitor.start (eyeprocTasks s.tasks) s.shell.display).loop (eyeprocTasks s.tasks) m.readings with
  | none => exact executes_error .spin
  | some n =>
    refine executes_ok (t := .cleared) (onDisplay_agrees _ s) (onDisplay_line _ s) ?_
    rw [onDisplay_display]
    exact (terminalClear_onScreen n.display).prompt

theorem shellExecute_executes (h : Seen s.shell.display) (cmd : List Byte) :
    Executes s (shellExecute m cmd s) (s.desk.perform m (shellCommand cmd)) := by
  unfold shellExecute
  by_cases hcmd : shellCommand cmd = .eyeproc
  · rw [hcmd]
    have heyeproc := executes_eyeproc (m := m) s
    generalize perform m s .eyeproc = r at heyeproc
    cases r with
    | error e => exact heyeproc
    | ok u => exact heyeproc
  · obtain ⟨hdesk, hline, hseen⟩ := serves_perform (m := m) h hcmd
    rw [← hdesk]
    generalize perform m s (shellCommand cmd) = r at hline hseen
    cases r with
    | error e => exact executes_error e
    | ok u =>
      simp only [ok_bind, if_neg hcmd]
      obtain ⟨t, hscreen⟩ := hseen u rfl
      have hkept := onDisplay_line shellPrintPrompt u
      have hsame := hline u rfl
      refine executes_ok (t := t) (onDisplay_agrees shellPrintPrompt u) ⟨hkept.1.trans hsame.1, hkept.2.trans hsame.2⟩ ?_
      rw [onDisplay_display]
      exact hscreen.prompt

end HekaOS.Sessions
