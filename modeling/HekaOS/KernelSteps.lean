import HekaOS.Syscall
import HekaOS.TransitionSystem

/-!
# Runs of the kernel

One operation after the other, in any order: tasks are created, the task on the CPU makes a
system call, signals are sent and acted on, the timer ticks. `sys_wait` contributes the rounds
of its loop. The memory of a task that was freed may change at any time.
-/

namespace HekaOS.Tasks
open KernelMemory PointerChain TransitionSystem

/-- The operations, with everything that decides what they do. -/
inductive KOp where
  | execInitFn (env : SpawnEnv) (size : ℕ)
  | execFn (env : SpawnEnv) (addr size : ℕ)
  | execUserFn (env : SpawnEnv) (size : ℕ)
  | syscall (env : SysEnv) (frame : TrapFrame)
  | waitRound (first : Bool) (fuel wstatus : ℕ)
  | fault (signum : ℕ)
  | send (t signum : ℕ)
  | register (t signum handler : ℕ)
  | dispatch (fuel t : ℕ)
  | doExit (fuel t code : ℕ)
  | reap (fuel zombie : ℕ)
  | tick (fuel : ℕ)
  | deliver (frame : TrapFrame)
  | scribble (t : ℕ) (junk : Task)

/-- On the scheduler list. -/
def Listed (s : KState) (t : ℕ) : Prop := ∃ l, Chain s.next s.taskListHead l ∧ t ∈ l

/-- `kmalloc` returns memory that is not in use. -/
def SpawnEnv.Fresh (env : SpawnEnv) (s : KState) : Prop := ∀ t ∈ env.kmalloc, t ∉ s.live

/-- What the callers of an operation see to. -/
def KOp.Allowed (s : KState) : KOp → Prop
  | .execInitFn env _ => env.Fresh s ∧ s.initProc = none
  | .execFn env _ _ => env.Fresh s
  | .execUserFn env _ => env.Fresh s
  | .syscall env frame => env.spawn.Fresh s ∧ syscallTable frame.eax ≠ some .waitpid
  | .send t _ => Listed s t
  | .register t _ _ => Listed s t
  | .dispatch _ t => Listed s t
  | .doExit _ t _ => Listed s t
  | .reap _ zombie => zombie ∈ s.live ∧ zombie ≠ s.currentTask ∧ (s.task zombie).state = .zombie ∧
      ∃ p ∈ s.live, (s.task zombie).parent = some p
  | .scribble t _ => t ∉ s.live
  | _ => True

/-- The state behind a call that came to an end. -/
def afterCall (r : Outcome × KState) : Option KState :=
  match r.1 with
  | .returned _ => some r.2
  | .parked => some r.2
  | _ => none

/-- One round of `sys_wait` by the current task; a first round starts with the test for
children. -/
def waitRound (first : Bool) (fuel wstatus : ℕ) (s : KState) : Option KState :=
  if first ∧ s.current.children = none ∧ some s.currentTask ≠ s.initProc then some s
  else
    match findZombie fuel s with
    | none => none
    | some none => some (blockCurrent s)
    | some (some zombie) => afterCall (collectZombie fuel wstatus zombie s)

def KOp.run (s : KState) : KOp → Option KState
  | .execInitFn env size => some (Tasks.execInitFn env size s)
  | .execFn env addr size => some (Tasks.execFn env addr size s)
  | .execUserFn env size => some (Tasks.execUserFn env size s.initProc s)
  | .syscall env frame =>
    let r := syscallDispatch env frame { s with interruptFlag := false }
    afterCall (r.1, { r.2.2 with interruptFlag := true })
  | .waitRound first fuel wstatus => Tasks.waitRound first fuel wstatus s
  | .fault signum => some (kernelSignalSend s.currentTask signum s)
  | .send t signum => some (kernelSignalSend t signum s)
  | .register t signum handler => some (kernelSignalRegister t signum handler s)
  | .dispatch fuel t => (kernelSignalDispatch fuel t s).toOption
  | .doExit fuel t code => (Tasks.doExit fuel t code s).toOption
  | .reap fuel zombie => (taskReap fuel zombie s).toOption
  | .tick fuel => (Tasks.tick fuel s).toOption
  | .deliver frame => some (signalCheckAndDeliver frame s).2
  | .scribble t junk => some (s.set t junk)

/-- Whether a dispatch would end a task. -/
def Task.Dies (x : Task) : Prop := x.drained.2 ≠ none

/-- The operation ends the task `t`. -/
def KOp.Ends (s : KState) (t : ℕ) : KOp → Prop
  | .syscall env frame =>
    match syscallTable frame.eax with
    | some .exit => t = s.currentTask
    | some .kill => t = s.currentTask ∧ killTarget env.fuel frame.ebx s = some (some t) ∧
        (s.current.signalSend frame.ecx).Dies
    | _ => False
  | .dispatch _ a => t = a ∧ (s.task a).Dies
  | .doExit _ a _ => t = a
  | .tick _ => t = s.currentTask ∧ s.current.Dies
  | _ => False

/-- The operation reaps the task `z`. -/
def KOp.Reaps (s : KState) (z : ℕ) : KOp → Prop
  | .waitRound _ fuel _ => findZombie fuel s = some (some z)
  | .reap _ a => z = a
  | _ => False

/-- The operation creates init. -/
def KOp.inits : KOp → Bool
  | .execInitFn _ _ => true
  | _ => false

/-- The operation is a `sys_fork`. -/
def KOp.Forks : KOp → Prop
  | .syscall _ frame => syscallTable frame.eax = some .fork
  | _ => False

/-- The operation creates a child of the task `p`. -/
def KOp.Bears (s : KState) (p : ℕ) : KOp → Prop
  | .execInitFn _ _ => p = initTask
  | .execFn _ _ _ => p = kthreaddTask
  | .execUserFn _ _ => s.initProc = some p
  | .syscall _ frame => syscallTable frame.eax = some .fork ∧ p = s.currentTask
  | _ => False

/-- An operation that comes to an end. -/
structure KStep (op : KOp) (s t : KState) : Prop where
  allowed : op.Allowed s
  run : op.run s = some t

def Boot (s : KState) : Prop := ∃ junk user, s = taskInit junk user

/-- Runs all of whose steps meet a condition. -/
def KRun (cond : KOp → KState → Prop) (s : KState) : Prop :=
  Reachable Boot (fun s t => ∃ op, cond op s ∧ KStep op s t) s

/-- The state behind an operation that comes to an end. -/
def KState.after (s : KState) (op : KOp) : KState := (op.run s).getD s

theorem kstep_after {op : KOp} {s : KState} (hallowed : op.Allowed s) (hends : (op.run s).isSome = true) :
    KStep op s (s.after op) := by
  refine ⟨hallowed, ?_⟩
  obtain ⟨t, ht⟩ := Option.isSome_iff_exists.mp hends
  rw [KState.after, ht]
  rfl

theorem KRun.after {cond : KOp → KState → Prop} {op : KOp} {s : KState} (hs : KRun cond s)
    (hcond : cond op s) (hallowed : op.Allowed s) (hends : (op.run s).isSome = true) :
    KRun cond (s.after op) :=
  .next hs ⟨op, hcond, kstep_after hallowed hends⟩

/-- A boot over empty memory. -/
def bootState : KState := taskInit (fun _ => {}) fun _ => 0

theorem KRun.bootState (cond : KOp → KState → Prop) : KRun cond bootState := .start ⟨_, _, rfl⟩

/-- A creation in which every allocation succeeds. -/
def spawnAt (t : ℕ) : SpawnEnv := ⟨some t, kstackPages, true⟩

theorem spawnAt_fresh {a : ℕ} {s : KState} (h : a ∉ s.live) : (spawnAt a).Fresh s := by
  intro t ht
  exact Option.some.inj ht ▸ h

/-- The frame of a call from Ring 3 with two arguments. -/
def userFrame (num ebx ecx userEsp : ℕ) : TrapFrame :=
  ⟨0x2B, 0, 0, 0, 0, ebx, 0, ecx, num, 0x80, 0, userCodeBase, 0x23, 0x202, userEsp, 0x2B⟩

/-- A system call made while every allocation succeeds. -/
def callWith (t num ebx ecx : ℕ) : KOp :=
  .syscall ⟨16, 0, spawnAt t, none, fun _ s => s⟩ (userFrame num ebx ecx userStackTop)

/-- Boot up to the moment when a user task, a child of init, is on the CPU: the shell has
stopped `init_task`. -/
def userOnCpu : KState :=
  (((bootState.after (.execInitFn (spawnAt 10) 100)).after (.execUserFn (spawnAt 11) 100)).after
    (.send initTask sigstop)).after (.tick 16)

theorem KRun.userOnCpu {cond : KOp → KState → Prop}
    (h₁ : cond (.execInitFn (spawnAt 10) 100) Tasks.bootState)
    (h₂ : cond (.execUserFn (spawnAt 11) 100) (Tasks.bootState.after (.execInitFn (spawnAt 10) 100)))
    (h₃ : cond (.send initTask sigstop)
      ((Tasks.bootState.after (.execInitFn (spawnAt 10) 100)).after (.execUserFn (spawnAt 11) 100)))
    (h₄ : cond (.tick 16)
      (((Tasks.bootState.after (.execInitFn (spawnAt 10) 100)).after (.execUserFn (spawnAt 11) 100)).after
        (.send initTask sigstop))) : KRun cond Tasks.userOnCpu := by
  refine KRun.after (KRun.after (KRun.after (KRun.after (KRun.bootState cond) h₁ ?_ ?_) h₂ ?_ ?_) h₃ ?_ ?_)
    h₄ trivial ?_
  · exact ⟨spawnAt_fresh (by decide +kernel), rfl⟩
  · decide +kernel
  · exact spawnAt_fresh (by decide +kernel)
  · decide +kernel
  · exact ⟨[11, 10, 0], by simp only [chain_cons, chain_nil]; decide +kernel, by decide⟩
  · decide +kernel
  · decide +kernel

/-- That task has sent itself `SIGTERM`. -/
def selfKilled : KState := userOnCpu.after (callWith 12 37 3 sigterm)

theorem KRun.selfKilled {cond : KOp → KState → Prop} (hs : KRun cond Tasks.userOnCpu)
    (hcond : cond (callWith 12 37 3 sigterm) Tasks.userOnCpu) : KRun cond Tasks.selfKilled :=
  hs.after hcond ⟨spawnAt_fresh (by decide +kernel), by decide⟩ (by decide +kernel)

theorem toOption_eq_some {α : Type} {x : Kernel α} {a : α} : x.toOption = some a ↔ x = .ok a := by
  cases x <;> simp [Except.toOption]

theorem afterCall_finish {v : ℕ} {s t : KState} {x : Kernel KState}
    (h : afterCall (finish v s x) = some t) : x = .ok t := by
  cases x with
  | error e => exact nomatch h
  | ok a => exact congrArg _ (Option.some.inj h)

end HekaOS.Tasks
