import HekaOS.StrayStores

/-!
# `sys_wait` step by step

`sys_wait` runs with interrupts disabled up to its first halt and with interrupts enabled from
then on, so a tick can come between any two of its steps. The machine keeps for every task where
it stands in the call: at a child of the scan, at a zombie it found, in the loop that halts, or in
`task_reap`, which looks for the link to the zombie on the list of children and on that of the
scheduler, loads what is behind the zombie and stores it in place of the link. What follows that store
on either list concerns the zombie alone, which nobody else can reach any more, and is part of the same step.
The other calls run with interrupts disabled and are one step each. The exit code goes wherever `wstatus`
leads (`KernelImage`).
-/

namespace HekaOS.Tasks
open KernelMemory PointerChain ByteMemory TransitionSystem

/-- The lists that a task is taken off when it is reaped. -/
inductive Links where
  | siblings (parent : ℕ)
  | tasks
  deriving DecidableEq

namespace Links

def first (s : KState) : Links → Option ℕ
  | .siblings parent => (s.task parent).children
  | .tasks => s.taskListHead

def behind (s : KState) : Links → ℕ → Option ℕ
  | .siblings _ => s.sibling
  | .tasks => s.next

/-- Store to the link of `pred`, or to the head of the list. -/
def relink (s : KState) : Links → Option ℕ → Option ℕ → KState
  | .siblings parent, none, next => s.modify parent fun x => { x with children := next }
  | .siblings _, some a, next => s.modify a fun x => { x with sibling := next }
  | .tasks, none, next => { s with taskListHead := next }
  | .tasks, some a, next => s.modify a fun x => { x with next := next }

end Links

/-- How far a task has got in taking a zombie off a list. -/
inductive Unlink where
  | head
  | walk (cur : Option ℕ)
  | load (pred : Option ℕ)
  | store (pred next : Option ℕ)
  deriving DecidableEq

/-- Where a task stands. -/
inductive Place where
  | user
  | scan (wstatus : ℕ) (c : Option ℕ)
  | found (wstatus zombie : ℕ)
  | reap (zombie : ℕ) (links : Links) (stage : Unlink)
  | asleep (wstatus : ℕ)
  | parked
  deriving DecidableEq

/-- The task is inside `sys_wait`. -/
def Place.inWait : Place → Bool
  | .scan _ _ => true
  | .found _ _ => true
  | .reap _ _ _ => true
  | .asleep _ => true
  | _ => false

structure Machine where
  k : KState
  place : ℕ → Place

namespace Machine

/-- The task on the CPU goes on to another place. -/
def goto (m : Machine) (p : Place) : Machine :=
  { m with place := Function.update m.place m.k.currentTask p }

def currentPlace (m : Machine) : Place := m.place m.k.currentTask

/-- The places after an operation: a task that it has created starts in user code. -/
def places (m : Machine) (a : ℕ) : Place := if a ∈ m.k.live then m.place a else .user

end Machine

/-- The zombie is off a list: it is cleared of its parent, or freed on the way back to user code. -/
def unlinked (zombie : ℕ) (m : Machine) : Links → Machine
  | .siblings _ =>
    { m.goto (.reap zombie .tasks .head) with
      k := m.k.modify zombie fun x => { x with sibling := none, parent := none } }
  | .tasks => { m.goto .user with k := { releaseTask zombie m.k with interruptFlag := true } }

/-- One step of the current task inside `task_reap`. -/
def reapStep (zombie : ℕ) (links : Links) (m : Machine) : Unlink → Machine
  | .head =>
    if links.first m.k = some zombie then m.goto (.reap zombie links (.load none))
    else m.goto (.reap zombie links (.walk (links.first m.k)))
  | .walk none => unlinked zombie m links
  | .walk (some a) =>
    if links.behind m.k a = some zombie then m.goto (.reap zombie links (.load (some a)))
    else m.goto (.reap zombie links (.walk (links.behind m.k a)))
  | .load pred => m.goto (.reap zombie links (.store pred (links.behind m.k zombie)))
  | .store pred next => unlinked zombie { m with k := links.relink m.k pred next } links

/-- One step of the current task inside `sys_wait`. -/
def waitStep (k : KernelImage) (m : Machine) : Option Machine :=
  match m.currentPlace with
  | .scan wstatus (some c) =>
    if (m.k.task c).state = .zombie then some (m.goto (.found wstatus c))
    else some (m.goto (.scan wstatus (m.k.sibling c)))
  | .scan wstatus none => some { m.goto (.asleep wstatus) with k := blockCurrent m.k }
  | .found wstatus zombie =>
    let s := if wstatus ≠ 0 then k.writeUser wstatus (wordBytes (m.k.task zombie).exitCode) m.k else m.k
    let links := match (s.task zombie).parent with
      | some parent => Links.siblings parent
      | none => .tasks
    some { m.goto (.reap zombie links .head) with k := s.call (.taskReap zombie) }
  | .reap zombie links stage => some (reapStep zombie links m stage)
  | .asleep wstatus =>
    if m.k.current.state = .blocked then some { m with k := { m.k with interruptFlag := true } }
    else some (m.goto (.scan wstatus m.k.current.children))
  | _ => none

inductive Move where
  | callWait (wstatus : ℕ)
  | wait
  | syscall (env : SysEnv) (frame : TrapFrame)
  | interrupt (op : KOp)
  | tick (fuel : ℕ)

/-- Work that is done between two instructions of the current task. -/
def KOp.External : KOp → Prop
  | .execInitFn _ _ => True
  | .execFn _ _ _ => True
  | .execUserFn _ _ => True
  | .fault _ => True
  | .send _ _ => True
  | .register _ _ _ => True
  | .deliver _ => True
  | .scribble _ _ => True
  | _ => False

/-- Where and when a move can be made. `init_task` makes no system calls; only what interrupts
do depends on the interrupt flag. -/
def Move.Allowed (m : Machine) : Move → Prop
  | .callWait _ => m.currentPlace = .user ∧ m.k.currentTask ≠ initTask
  | .wait => True
  | .syscall env frame => m.currentPlace = .user ∧ (KOp.syscall env frame).Allowed m.k
  | .interrupt op => m.k.interruptFlag = true ∧ op.External ∧ op.Allowed m.k
  | .tick _ => m.k.interruptFlag = true

def Move.run (k : KernelImage) (m : Machine) : Move → Option Machine
  | .callWait wstatus =>
    if m.k.current.children = none ∧ some m.k.currentTask ≠ m.k.initProc then some m
    else some { m.goto (.scan wstatus m.k.current.children) with k := { m.k with interruptFlag := false } }
  | .wait => waitStep k m
  | .syscall env frame =>
    ((KOp.syscall env frame).run m.k).map fun s =>
      ⟨s, if syscallTable frame.eax = some .exit then Function.update m.places m.k.currentTask .parked
        else m.places⟩
  | .interrupt op => (k.run m.k op).map fun s => ⟨s, m.places⟩
  | .tick fuel => ((KOp.tick fuel).run m.k).map fun s => ⟨s, m.place⟩

structure MStep (k : KernelImage) (mv : Move) (m n : Machine) : Prop where
  allowed : mv.Allowed m
  run : mv.run k m = some n

/-- `task_init`, and interrupts enabled. -/
def MBoot (m : Machine) : Prop := ∃ k, Boot k ∧ m = ⟨{ k with interruptFlag := true }, fun _ => .user⟩

/-- Runs all of whose steps meet a condition. -/
def MRun (k : KernelImage) (cond : Move → Machine → Prop) (m : Machine) : Prop :=
  Reachable MBoot (fun m n => ∃ mv, cond mv m ∧ MStep k mv m n) m

/-- The machine behind a move that comes to an end. -/
def Machine.after (k : KernelImage) (m : Machine) (mv : Move) : Machine := (mv.run k m).getD m

theorem MRun.after {k : KernelImage} {cond : Move → Machine → Prop} {m : Machine} (hm : MRun k cond m) (mv : Move)
    (hcond : cond mv m) (hallowed : mv.Allowed m) (hends : (mv.run k m).isSome = true) :
    MRun k cond (m.after k mv) := by
  refine .next hm ⟨mv, hcond, hallowed, ?_⟩
  obtain ⟨n, hn⟩ := Option.isSome_iff_exists.mp hends
  rw [Machine.after, hn]
  rfl

/-- The scan of `p` is behind `a`. -/
def Machine.Passed (m : Machine) (p a : ℕ) : Prop :=
  ∃ wstatus c l, m.place p = .scan wstatus c ∧ Chain m.k.sibling c l ∧ a ∉ l

/-- The move ends the task `a`. -/
def Move.Ends (m : Machine) (a : ℕ) : Move → Prop
  | .syscall env frame => (KOp.syscall env frame).Ends m.k a
  | .tick fuel => (KOp.tick fuel).Ends m.k a
  | _ => False

/-- The move creates a child of `p`. -/
def Move.Bears (m : Machine) (p : ℕ) : Move → Prop
  | .syscall env frame => (KOp.syscall env frame).Bears m.k p
  | .interrupt op => op.Bears m.k p
  | _ => False

/-- The task is alive and in the middle of a reap. -/
def Machine.Reaps (m : Machine) (p z : ℕ) (links : Links) (stage : Unlink) : Prop :=
  p ∈ m.k.live ∧ (m.k.task p).state ≠ .zombie ∧ m.place p = .reap z links stage

/-- It has seen that the zombie is the first of a list, whose head it is going to replace. -/
def Unlink.Heads : Unlink → Prop
  | .load none => True
  | .store none _ => True
  | _ => False

/-- A child of `t` is a zombie, or will be when the current task has ended. -/
def KState.ZombieChild (s : KState) (t : ℕ) : Prop :=
  ∃ c ∈ s.live, ((s.task c).state = .zombie ∧ (s.task c).parent = some t) ∨
    s.current.Dies ∧ ((c = s.currentTask ∧ (s.task c).parent = some t) ∨
      (s.task c).state = .zombie ∧ (s.task c).parent = some s.currentTask ∧ t = s.reaper)

/-- No zombie appears behind the scan of its parent, no zombie goes on with `sys_wait`, and the
test of the third lap blocks nobody inside `sys_wait` who has a zombie to collect. While the head of a list is being
replaced nothing is put in front of that list, zombies are taken off the scheduler list one at a time, and
no store of an exit code or a signal frame hits kernel memory. -/
structure Move.Timely (k : KernelImage) (m : Machine) (mv : Move) : Prop where
  passed : ∀ a p, mv.Ends m a → (m.k.task a).parent = some p → ¬m.Passed p a
  orphans : ∀ a, mv.Ends m a → ∀ z ∈ m.k.live, (m.k.task z).parent = some a →
    (m.k.task z).state = .zombie → ∀ wstatus c, m.place m.k.reaper ≠ .scan wstatus c
  zombie : mv = .wait → m.k.current.state ≠ .zombie
  trigger : ∀ fuel, mv = .tick fuel → m.k.Armed → ∀ t ∈ m.k.live, (m.place t).inWait = true →
    ¬m.k.ZombieChild t
  front : ∀ p z parent stage, m.Reaps p z (.siblings parent) stage → stage.Heads → ¬mv.Bears m p ∧
    ∀ a, mv.Ends m a → p = m.k.reaper → (m.k.task a).children = none
  first : ∀ p z stage, m.Reaps p z .tasks stage → stage.Heads → ∀ q, ¬mv.Bears m q
  alone : mv = .wait → ∀ z parent pred next, m.currentPlace = .reap z (.siblings parent) (.store pred next) →
    ∀ p z' stage, ¬m.Reaps p z' .tasks stage
  wstatus : mv = .wait → ∀ wstatus z, m.currentPlace = .found wstatus z → wstatus = 0 ∨ k.Misses wstatus 4
  frames : ∀ op, mv = .interrupt op → op.Misses k m.k

end HekaOS.Tasks
