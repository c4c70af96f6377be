import HekaOS.Signal

/-!
# Creating, ending and reaping tasks

`task.c`: the genealogy helpers, the three ways a task is created, `do_exit` and `task_reap`.
What the allocators answer is an input (`SpawnEnv`); loops along links take fuel, because the
source has nothing that bounds them.
-/

namespace HekaOS.Tasks
open KernelMemory PointerChain

/-- `task_init`, over whatever the task memory held before. -/
def taskInit (junk : ℕ → Task) (user : ByteMemory.Memory) : KState where
  task := Function.update (Function.update junk
      initTask { state := .running, quantum := procQuantum, timeLeft := procQuantum,
                 children := some kthreaddTask })
      kthreaddTask { state := .blocked, pid := 2, quantum := procQuantum, timeLeft := procQuantum,
                     parent := some initTask }
  taskCounter := 2
  taskListHead := some initTask
  currentTask := initTask
  initProc := none
  needResched := false
  nextTask := none
  lapAnchor := none
  lapNum := 0
  blockedMarker := false
  unblockedMarker := false
  interruptFlag := false
  esp0 := 0
  user := user
  live := {initTask, kthreaddTask}
  trace := []

def pidAlloc (s : KState) : Option ℕ × KState :=
  if maxProc - 1 ≤ s.taskCounter then (none, s)
  else (some (s.taskCounter + 1), { s with taskCounter := s.taskCounter + 1 })

def pidRelease (s : KState) : KState := { s with taskCounter := s.taskCounter - 1 }

def taskAddChild (parent child : ℕ) (s : KState) : KState :=
  let s := s.modify child fun x => { x with parent := some parent }
  let s := s.modify child fun x => { x with sibling := (s.task parent).children }
  s.modify parent fun x => { x with children := some child }

/-- Take a child out of the chain of its parent. -/
def unlinkChild (fuel parent child : ℕ) (s : KState) : Kernel KState :=
  let cur := (s.task parent).children
  if cur = some child then
    .ok (s.modify parent fun x => { x with children := s.sibling child })
  else do
    let cur ← ended (find s.sibling (fun a => decide (s.sibling a = some child)) fuel cur)
    match cur with
    | some a => .ok (s.modify a fun x => { x with sibling := s.sibling child })
    | none => .ok s

def taskRemoveChild (fuel parent child : ℕ) (s : KState) : Kernel KState := do
  let s ← unlinkChild fuel parent child s
  .ok (s.modify child fun x => { x with sibling := none, parent := none })

/-- `if (t->parent != NULL) task_remove_child (t->parent, t);` -/
def detach (fuel t : ℕ) (s : KState) : Kernel KState :=
  match (s.task t).parent with
  | some p => taskRemoveChild fuel p t s
  | none => .ok s

/-- What the allocators answer while a task is created: `kmalloc`, how many of the
`alloc_page` calls for the kernel stack succeed, and whether the user image can be loaded
(or copied, for a fork). -/
structure SpawnEnv where
  kmalloc : Option ℕ
  kstackPages : ℕ
  userImage : Bool

/-- `kmalloc` and `memset` of a task struct, and its pid. -/
def allocTask (t pid : ℕ) (s : KState) : KState :=
  { s.modify t fun _ => { pid := pid } with live := insert t s.live }

/-- `kfree` of a task struct. -/
def freeTask (t : ℕ) (s : KState) : KState :=
  { s.call (.kfree t) with live := s.live.erase t }

def kstackVa (pid : ℕ) : ℕ := kstackVaBase + pid * kstackPages * pageSize

/-- `free_page` of the first `n` pages of a kernel stack. -/
def freeKstack (base n : ℕ) (s : KState) : KState :=
  (List.range n).foldl (fun s f => s.call (.freePage (base + f * pageSize))) s

/-- The loop that maps a kernel stack, with its rollback. -/
def allocKstack (env : SpawnEnv) (pid : ℕ) (s : KState) : Bool × KState :=
  if kstackPages ≤ env.kstackPages then (true, s)
  else (false, freeKstack (kstackVa pid) env.kstackPages s)

/-- `t->next = task_list_head; task_list_head = t;` -/
def linkTask (t : ℕ) (s : KState) : KState :=
  { s.modify t fun x => { x with next := s.taskListHead } with taskListHead := some t }

def execFn (env : SpawnEnv) (addr size : ℕ) (s : KState) : KState :=
  if size = 0 then s
  else
    match pidAlloc s with
    | (none, s) => s
    | (some pid, s) =>
      match env.kmalloc with
      | none => pidRelease s
      | some t =>
        match allocKstack env pid (allocTask t pid s) with
        | (false, s) => pidRelease (freeTask t s)
        | (true, s) =>
          let s := s.modify t fun x => { x with
            uid := s.current.uid
            euid := s.current.euid
            quantum := procQuantum
            timeLeft := procQuantum
            kstack := kstackVa pid
            mm := { x.mm with pgdir := pid, codeStart := addr, codeEnd := addr + size }
            parent := some kthreaddTask }
          let s := taskAddChild kthreaddTask t s
          let s := linkTask t s
          s.modify t fun x => { x with state := .runnable }

def spawnUser (env : SpawnEnv) (pid size : ℕ) (parent : Option ℕ) (s : KState) :
    Option ℕ × KState :=
  match parent with
  | none => (none, s)
  | some parent =>
    if size = 0 ∨ pageSize < size ∨ parent = kthreaddTask ∨ maxProc - 1 ≤ s.taskCounter then (none, s)
    else
      match env.kmalloc with
      | none => (none, s)
      | some t =>
        match allocKstack env pid (allocTask t pid s) with
        | (false, s) => (none, freeTask t s)
        | (true, s) =>
          if !env.userImage then
            let s := freeKstack (kstackVa pid) kstackPages s
            (none, freeTask t (s.call (.pagingProcTeardown pid)))
          else
            let s := s.modify t fun x => { x with
              uid := s.current.uid
              euid := s.current.euid
              quantum := procQuantum
              timeLeft := procQuantum
              kstack := kstackVa pid
              isUserspace := true
              mm := { x.mm with
                pgdir := pid
                codeStart := userCodeBase
                codeEnd := userCodeBase + size
                stackTop := userStackTop }
              parent := some parent }
            let s := taskAddChild parent t s
            let s := linkTask t s
            (some t, s.modify t fun x => { x with state := .runnable })

def execUserFn (env : SpawnEnv) (size : ℕ) (parent : Option ℕ) (s : KState) : KState :=
  match pidAlloc s with
  | (none, s) => s
  | (some pid, s) =>
    match spawnUser env pid size parent s with
    | (none, s) => pidRelease s
    | (some _, s) => s

def execInitFn (env : SpawnEnv) (size : ℕ) (s : KState) : KState :=
  let (t, s) := spawnUser env initPid size (some initTask) s
  { s with initProc := t }

def taskReparent (fuel task newParent : ℕ) (s : KState) : Kernel KState := do
  let s ← detach fuel task s
  .ok (taskAddChild newParent task s)

/-- The task that adopts orphans. -/
def KState.reaper (s : KState) : ℕ := s.initProc.getD initTask

/-- The loop of `do_exit` that hands all children of `t` to the reaper. -/
def orphanChildren (fuel t reaper : ℕ) : ℕ → KState → Kernel KState
  | 0, _ => .error .spin
  | n + 1, s =>
    match (s.task t).children with
    | none => .ok s
    | some c => do
      let s ← taskReparent fuel c reaper s
      orphanChildren fuel t reaper n s

/-- The part of `do_exit` before the loop: the exit code, and a signal to the reaper if it is
about to get children. -/
def beginExit (t code : ℕ) (s : KState) : KState :=
  let s := s.modify t fun x => { x with exitCode := code }
  if (s.task t).children ≠ none ∧ s.reaper ≠ t then kernelSignalSend s.reaper sigchld s else s

/-- `if (t->parent != NULL) kernel_signal_send (t->parent, SIGCHLD);` -/
def notifyParent (t : ℕ) (s : KState) : KState :=
  match (s.task t).parent with
  | some p => kernelSignalSend p sigchld s
  | none => s

def doExit (fuel t code : ℕ) (s : KState) : Kernel KState := do
  let u ← orphanChildren fuel t s.reaper fuel (beginExit t code s)
  .ok (notifyParent t (u.modify t fun x => { x with state := .zombie }))

/-- `task_fork` by the current task: the pid of the child, or `none` for `-1`. -/
def taskFork (env : SpawnEnv) (s : KState) : Option ℕ × KState :=
  if s.current.kstack = 0 then (none, s)
  else
    match pidAlloc s with
    | (none, s) => (none, s)
    | (some pid, s) =>
      match env.kmalloc with
      | none => (none, pidRelease s)
      | some child =>
        match allocKstack env pid (allocTask child pid s) with
        | (false, s) => (none, pidRelease (freeTask child s))
        | (true, s) =>
          if !env.userImage then
            (none, pidRelease (freeTask child (freeKstack (kstackVa pid) kstackPages s)))
          else
            let cur := s.current
            let s := s.modify child fun x => { x with
              state := .runnable
              kstack := kstackVa pid
              parent := some s.currentTask
              uid := cur.uid
              euid := cur.euid
              quantum := cur.quantum
              timeLeft := cur.quantum
              mm := { cur.mm with pgdir := pid }
              isUserspace := cur.isUserspace
              signalHandlers := cur.signalHandlers }
            let s := taskAddChild s.currentTask child s
            (some pid, linkTask child s)

/-- Take a task off the scheduler list. -/
def unlinkTask (fuel t : ℕ) (s : KState) : Kernel KState :=
  if s.taskListHead = some t then .ok { s with taskListHead := s.next t }
  else do
    let prev ← ended (find s.next (fun a => decide (s.next a = some t)) fuel s.taskListHead)
    match prev with
    | some a => .ok (s.modify a fun x => { x with next := s.next t })
    | none => .ok s

/-- The calls before the last one of `task_reap`: the kernel stack, the two buffers and the
page directory of a task. -/
def releaseResources (z : Task) (s : KState) : KState :=
  let s := if z.kstack ≠ 0 then freeKstack z.kstack kstackPages s else s
  let s := if z.logBuf.isSome then s.call .kmemFree else s
  let s := if z.inBuf.isSome then s.call .kmemFree else s
  s.call (.pagingProcTeardown z.pid)

def releaseTask (zombie : ℕ) (s : KState) : KState :=
  freeTask zombie (releaseResources (s.task zombie) s)

def taskReap (fuel zombie : ℕ) (s : KState) : Kernel KState := do
  let s ← detach fuel zombie s
  let s ← unlinkTask fuel zombie s
  .ok (releaseTask zombie s)

theorem allocTask_task_of_ne {a b pid : ℕ} {s : KState} (h : b ≠ a) :
    (allocTask a pid s).task b = s.task b := Function.update_of_ne h _ _

theorem linkTask_task_of_ne {a b : ℕ} {s : KState} (h : b ≠ a) :
    (linkTask a s).task b = s.task b := Function.update_of_ne h _ _

/-- The states differ in the trace alone. -/
def TraceOnly (s t : KState) : Prop := ∃ tr, t = { s with trace := tr }

variable {s t u : KState}

theorem TraceOnly.trans (h₁ : TraceOnly s t) (h₂ : TraceOnly t u) : TraceOnly s u := by
  obtain ⟨tr, rfl⟩ := h₁
  obtain ⟨tr', rfl⟩ := h₂
  exact ⟨tr', rfl⟩

theorem traceOnly_call (c : KCall) (s : KState) : TraceOnly s (s.call c) := ⟨_, rfl⟩

theorem traceOnly_ite {b : Prop} [Decidable b] (h : TraceOnly s t) : TraceOnly s (if b then t else s) := by
  split
  · exact h
  · exact ⟨s.trace, rfl⟩

theorem traceOnly_freeKstack (base n : ℕ) (s : KState) : TraceOnly s (freeKstack base n s) := by
  unfold freeKstack
  induction n with
  | zero => exact ⟨s.trace, rfl⟩
  | succ n ih =>
    rw [List.range_succ, List.foldl_append]
    exact ih.trans (traceOnly_call _ _)

theorem traceOnly_allocKstack (env : SpawnEnv) (pid : ℕ) (s : KState) :
    TraceOnly s (allocKstack env pid s).2 := by
  unfold allocKstack
  split
  · exact ⟨s.trace, rfl⟩
  · exact traceOnly_freeKstack _ _ s

theorem traceOnly_releaseResources (z : Task) (s : KState) : TraceOnly s (releaseResources z s) := by
  dsimp only [releaseResources]
  refine TraceOnly.trans ?_ (traceOnly_call _ _)
  refine TraceOnly.trans ?_ (traceOnly_ite (traceOnly_call _ _))
  refine TraceOnly.trans ?_ (traceOnly_ite (traceOnly_call _ _))
  exact traceOnly_ite (traceOnly_freeKstack _ _ s)

/-- Releasing a task frees its struct and leaves everything else in place. -/
theorem releaseTask_eq (a : ℕ) (s : KState) :
    ∃ tr, releaseTask a s = { s with trace := tr, live := s.live.erase a } := by
  obtain ⟨tr, h⟩ := traceOnly_releaseResources (s.task a) s
  rw [releaseTask, h]
  exact ⟨_, rfl⟩

end HekaOS.Tasks
