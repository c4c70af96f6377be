import HekaOS.SyscallTrace

/-!
# Stores through unchecked pointers

`sys_wait` stores an exit code at `wstatus` and `setup_user_sigframe` a frame below the user's
stack pointer, both in Ring 0 and neither behind a check, so these stores can hit the kernel's own
data. `KState` keeps what is seen through user pointers apart from the task structs. Here the two
functions and the runs they take part in are given with the store in both places. Where the
kernel's data lie is up to the linker and the allocators and therefore a parameter. As long as the
stores miss kernel memory, runs are those of `KernelSteps`.
-/

namespace HekaOS.Tasks
open MachineWord KernelMemory ByteMemory TransitionSystem

variable {s t : KState} {a len wstatus z fuel : ℕ}

/-- Where the kernel keeps its data, and what a store of bytes at an address makes of them. -/
structure KernelImage where
  memory : Set ℕ
  store : ℕ → List ℕ → KState → KState
  outside : ∀ a bytes s, (∀ i < bytes.length, add32 a i ∉ memory) → store a bytes s = s
  /-- The pages of Ring 3 lie between the two bounds. -/
  apart : ∀ a ∈ memory, a < userCodeBase ∨ kernelVirtBase ≤ a

namespace KernelImage

variable {k : KernelImage} {cond : KOp → KState → Prop} {op : KOp}

/-- The `len` bytes at `a` are none of the kernel's. -/
def Misses (k : KernelImage) (a len : ℕ) : Prop := ∀ i < len, add32 a i ∉ k.memory

/-- A store through a pointer that nobody has checked. -/
def writeUser (k : KernelImage) (a : ℕ) (bytes : List ℕ) (s : KState) : KState :=
  k.store a bytes (s.writeUser a bytes)

theorem writeUser_eq {bytes : List ℕ} (h : k.Misses a bytes.length) (s : KState) :
    k.writeUser a bytes s = s.writeUser a bytes :=
  k.outside a bytes _ h

/-- `*wstatus = zombie->exit_code;` and the reap behind it. -/
def collectZombie (k : KernelImage) (fuel wstatus zombie : ℕ) (s : KState) : Outcome × KState :=
  let pid := (s.task zombie).pid
  let s := if wstatus ≠ 0 then k.writeUser wstatus (wordBytes (s.task zombie).exitCode) s else s
  let s := s.call (.taskReap zombie)
  finish pid s (taskReap fuel zombie s)

theorem collectZombie_eq (h : wstatus = 0 ∨ k.Misses wstatus 4) (s : KState) :
    k.collectZombie fuel wstatus z s = Tasks.collectZombie fuel wstatus z s := by
  rcases h with rfl | h
  · rfl
  · have hstore : k.writeUser wstatus (wordBytes (s.task z).exitCode) s =
        s.writeUser wstatus (wordBytes (s.task z).exitCode) := writeUser_eq h s
    rw [collectZombie, hstore]
    rfl

def waitLoop (k : KernelImage) (env : SysEnv) (wstatus : ℕ) : ℕ → ℕ → KState → Outcome × KState
  | 0, _, s => (.waiting, s)
  | n + 1, halts, s =>
    match findZombie env.fuel s with
    | none => (.stuck .spin, s)
    | some (some zombie) => k.collectZombie env.fuel wstatus zombie s
    | some none => k.waitLoop env wstatus n (halts + 1) (haltUntilWoken env halts (blockCurrent s))

def sysWait (k : KernelImage) (env : SysEnv) (wstatus : ℕ) (s : KState) : Outcome × KState :=
  if s.current.children = none ∧ some s.currentTask ≠ s.initProc then (.returned minusOne, s)
  else k.waitLoop env wstatus env.rounds 0 s

/-- One round of `sys_wait`. -/
def waitRound (k : KernelImage) (first : Bool) (fuel wstatus : ℕ) (s : KState) : Option KState :=
  if first ∧ s.current.children = none ∧ some s.currentTask ≠ s.initProc then some s
  else
    match findZombie fuel s with
    | none => none
    | some none => some (blockCurrent s)
    | some (some zombie) => afterCall (k.collectZombie fuel wstatus zombie s)

def setupUserSigframe (k : KernelImage) (frame : TrapFrame) (signum handler : ℕ) (s : KState) :
    TrapFrame × KState :=
  let usp := sigframeAddr frame.userEsp
  let s := k.writeUser (add32 usp 8) (frame.words.flatMap wordBytes) s
  let s := k.writeUser (add32 usp 4) (wordBytes signum) s
  let s := k.writeUser usp (wordBytes (add32 usp 72)) s
  let s := k.writeUser (add32 usp 72)
    [0xb8, sysSigreturnNum % 256, sysSigreturnNum / 256 % 256, sysSigreturnNum / 256 ^ 2 % 256,
      sysSigreturnNum / 256 ^ 3 % 256, 0xcd, 0x80, 0x90] s
  ({ frame with eip := handler, userEsp := usp, eflags := frame.eflags &&& (wordSize - 1 - 2 ^ 10) }, s)

/-- A part of a range that misses kernel memory. -/
theorem Misses.part {b n : ℕ} (h : k.Misses a len) (hn : b + n ≤ len) : k.Misses (add32 a b) n := by
  intro i hi
  have hsum : add32 (add32 a b) i = add32 a (b + i) := by
    simp only [add32, Nat.mod_add_mod, Nat.add_assoc]
  rw [hsum]
  exact h (b + i) (by omega)

theorem Misses.front {n : ℕ} (h : k.Misses a len) (hn : n ≤ len) : k.Misses a n :=
  fun i hi => h i (hi.trans_le hn)

theorem setupUserSigframe_eq {frame : TrapFrame} (h : k.Misses (sigframeAddr frame.userEsp) sigframeSize)
    (signum handler : ℕ) (s : KState) :
    k.setupUserSigframe frame signum handler s = Tasks.setupUserSigframe frame signum handler s := by
  have hframe : k.Misses (add32 (sigframeAddr frame.userEsp) 8) (frame.words.flatMap wordBytes).length :=
    h.part (n := 64) (by decide)
  have hsig : k.Misses (add32 (sigframeAddr frame.userEsp) 4) (wordBytes signum).length :=
    h.part (n := 4) (by decide)
  have hpretcode : k.Misses (sigframeAddr frame.userEsp)
      (wordBytes (add32 (sigframeAddr frame.userEsp) 72)).length :=
    h.front (n := 4) (by decide)
  have htrampoline : k.Misses (add32 (sigframeAddr frame.userEsp) 72) [0xb8, sysSigreturnNum % 256,
      sysSigreturnNum / 256 % 256, sysSigreturnNum / 256 ^ 2 % 256, sysSigreturnNum / 256 ^ 3 % 256,
      0xcd, 0x80, 0x90].length :=
    h.part (n := 8) (by decide)
  simp only [setupUserSigframe, Tasks.setupUserSigframe, k.writeUser_eq hframe, k.writeUser_eq hsig,
    k.writeUser_eq hpretcode, k.writeUser_eq htrampoline]

def signalCheckAndDeliver (k : KernelImage) (frame : TrapFrame) (s : KState) : TrapFrame × KState :=
  if frame.cs &&& 3 ≠ 3 then (frame, s)
  else
    match caughtSignal s.current with
    | none => (frame, s)
    | some bit =>
      k.setupUserSigframe frame (signumOf bit) (s.current.signalHandlers (signumOf bit))
        (s.modify s.currentTask (clearPending bit))

/-- A delivery on the way back to Ring 3 misses kernel memory, if there is one. -/
def MissedBy (k : KernelImage) (frame : TrapFrame) (s : KState) : Prop :=
  frame.cs &&& 3 = 3 → caughtSignal s.current ≠ none → k.Misses (sigframeAddr frame.userEsp) sigframeSize

theorem signalCheckAndDeliver_eq {frame : TrapFrame} (h : k.MissedBy frame s) :
    k.signalCheckAndDeliver frame s = Tasks.signalCheckAndDeliver frame s := by
  unfold signalCheckAndDeliver Tasks.signalCheckAndDeliver
  split
  · rfl
  · rename_i hcs
    cases hcaught : caughtSignal s.current with
    | none => rfl
    | some bit => exact setupUserSigframe_eq (h (not_not.mp hcs) (by simp [hcaught])) _ _ _

/-- The operations, with the stores they make through unchecked pointers. -/
def run (k : KernelImage) (s : KState) : KOp → Option KState
  | .waitRound first fuel wstatus => k.waitRound first fuel wstatus s
  | .deliver frame => some (k.signalCheckAndDeliver frame s).2
  | op => op.run s

/-- An operation that comes to an end. -/
structure Step (k : KernelImage) (op : KOp) (s t : KState) : Prop where
  allowed : op.Allowed s
  run : k.run s op = some t

/-- Runs all of whose steps meet a condition. -/
def Run (k : KernelImage) (cond : KOp → KState → Prop) (s : KState) : Prop :=
  Reachable Boot (fun s t => ∃ op, cond op s ∧ k.Step op s t) s

end KernelImage

/-- The stores of an operation through unchecked pointers miss kernel memory: that of a wait which
finds a zombie, and that of a delivery. -/
def KOp.Misses (k : KernelImage) (s : KState) : KOp → Prop
  | .waitRound _ fuel wstatus => (∃ z, findZombie fuel s = some (some z)) → wstatus = 0 ∨ k.Misses wstatus 4
  | .deliver frame => k.MissedBy frame s
  | _ => True

namespace KernelImage

variable {k : KernelImage} {cond : KOp → KState → Prop} {op : KOp}

theorem run_eq (h : op.Misses k s) : k.run s op = op.run s := by
  cases op with
  | waitRound first fuel wstatus =>
    have hcollect : ∀ z, findZombie fuel s = some (some z) →
        k.collectZombie fuel wstatus z s = Tasks.collectZombie fuel wstatus z s :=
      fun z hz => collectZombie_eq (h ⟨z, hz⟩) s
    dsimp only [run, KOp.run, waitRound, Tasks.waitRound]
    split
    · rfl
    · split <;> simp_all
  | deliver frame => exact congrArg (fun r => some r.2) (signalCheckAndDeliver_eq h)
  | _ => rfl

theorem step_iff (h : op.Misses k s) : k.Step op s t ↔ KStep op s t := by
  constructor
  · rintro ⟨hallowed, hrun⟩
    exact ⟨hallowed, (run_eq h).symm.trans hrun⟩
  · rintro ⟨hallowed, hrun⟩
    exact ⟨hallowed, (run_eq h).trans hrun⟩

theorem Run.mono {cond' : KOp → KState → Prop} (h : k.Run cond s) (himp : ∀ op s, cond op s → cond' op s) :
    k.Run cond' s := by
  induction h with
  | start h => exact .start h
  | next _ h ih =>
    obtain ⟨op, hcond, hstep⟩ := h
    exact .next ih ⟨op, himp op _ hcond, hstep⟩

/-- A run whose stores miss kernel memory is one of `KernelSteps`. -/
theorem Run.kernelRun (h : k.Run (fun op s => cond op s ∧ op.Misses k s) s) : KRun cond s := by
  induction h with
  | start h => exact .start h
  | next _ h ih =>
    obtain ⟨op, hcond, hstep⟩ := h
    exact .next ih ⟨op, hcond.1, (step_iff hcond.2).mp hstep⟩

theorem run_of_kernelRun (h : KRun (fun op s => cond op s ∧ op.Misses k s) s) :
    k.Run (fun op s => cond op s ∧ op.Misses k s) s := by
  induction h with
  | start h => exact .start h
  | next _ h ih =>
    obtain ⟨op, hcond, hstep⟩ := h
    exact .next ih ⟨op, hcond, (step_iff hcond.2).mpr hstep⟩

end KernelImage

/-! ### A task struct in memory -/

def TaskState.number : TaskState → ℕ
  | .runnable => 0
  | .running => 1
  | .blocked => 2
  | .zombie => 3
  | .stopped => 4

/-- The state with a number; numbers beyond the enumeration are no states. -/
def TaskState.ofNumber : ℕ → TaskState
  | 0 => .runnable
  | 1 => .running
  | 2 => .blocked
  | 3 => .zombie
  | _ => .stopped

namespace Task

/-- The words of `struct task` that hold plain numbers, by their offsets. Pointers, the saved
registers and `mm` are left out. -/
def word (x : Task) (offset : ℕ) : ℕ :=
  match offset with
  | 0 => x.state.number
  | 12 => x.pid
  | 64 => x.quantum
  | 68 => x.timeLeft
  | 72 => x.exitCode
  | 76 => x.uid
  | 80 => x.euid
  | 84 => x.pendingSignals.toNat
  | _ => if 88 ≤ offset ∧ offset < 216 then x.signalHandlers ((offset - 88) / 4) else 0

def setWord (x : Task) (offset w : ℕ) : Task :=
  match offset with
  | 0 => { x with state := .ofNumber w }
  | 12 => { x with pid := w }
  | 64 => { x with quantum := w }
  | 68 => { x with timeLeft := w }
  | 72 => { x with exitCode := w }
  | 76 => { x with uid := w }
  | 80 => { x with euid := w }
  | 84 => { x with pendingSignals := w }
  | _ => if 88 ≤ offset ∧ offset < 216 then
      { x with signalHandlers := Function.update x.signalHandlers ((offset - 88) / 4) w }
    else x

/-- The byte at an offset is stored. -/
def setByte (x : Task) (offset v : ℕ) : Task :=
  x.setWord (offset / 4 * 4) (putByte (offset % 4) v (x.word (offset / 4 * 4)))

/-- Bytes are stored one after the other, at `base` lies the struct. -/
def storeBytes (base : ℕ) : ℕ → List ℕ → Task → Task
  | _, [], x => x
  | a, v :: bytes, x =>
    storeBytes base (add32 a 1) bytes (if base ≤ a ∧ a < base + 216 then x.setByte (a - base) v else x)

theorem storeBytes_of_outside {base : ℕ} {bytes : List ℕ} {x : Task}
    (h : ∀ i < bytes.length, add32 a i ∉ {p | base ≤ p ∧ p < base + 216}) (ha : a < wordSize) :
    storeBytes base a bytes x = x := by
  induction bytes generalizing a with
  | nil => rfl
  | cons v bytes ih =>
    have hfirst : ¬(base ≤ a ∧ a < base + 216) := by
      have hzero := h 0 (by simp)
      rwa [add32_of_lt (by simpa using ha)] at hzero
    rw [storeBytes, if_neg hfirst]
    refine ih (fun i hi => ?_) (add32_lt _ _)
    have hsum : add32 (add32 a 1) i = add32 a (i + 1) := by
      simp only [add32, Nat.mod_add_mod, Nat.add_assoc, Nat.add_comm 1]
    rw [hsum]
    exact h (i + 1) (by simpa using hi)

end Task

/-- A kernel in which the struct of the task `t`, up to its handlers, lies at `base`. -/
def structImage (t base : ℕ) (h : kernelVirtBase ≤ base) : KernelImage where
  memory := {p | base ≤ p ∧ p < base + 216}
  store a bytes s := s.modify t (Task.storeBytes base (add32 a 0) bytes)
  outside a bytes s hmiss := by
    have hsame : Task.storeBytes base (add32 a 0) bytes (s.task t) = s.task t := by
      refine Task.storeBytes_of_outside (fun i hi => ?_) (add32_lt _ _)
      have hsum : add32 (add32 a 0) i = add32 a i := by
        simp only [add32, Nat.mod_add_mod, Nat.add_zero]
      rw [hsum]
      exact hmiss i hi
    rw [KState.modify, hsame, Function.update_eq_self]
  apart _ hp := .inr (h.trans hp.1)

end HekaOS.Tasks
