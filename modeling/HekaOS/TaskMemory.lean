import HekaOS.TaskBirth
import HekaOS.Vmalloc

/-!
# The memory of tasks

What `task.c` asks of the chunk pool and of the page tables when a task is created and when it is
reaped, call by call in the order of the source. The answers are what the creators of `Task` go by. They
and the links of the tasks share no memory, so a creator is the calls followed by what they decide. The loop
of `exec_fn` that copies the code of a kernel task counts as stores of their own.
-/

namespace HekaOS.TaskMemory
open MachineWord KernelMemory Vmalloc
open Paging (Layout PagingState allocPage freePage pagePresent pageRw pagingProcInit pagingLoadUserImage
  pagingForkCopy pagingProcTeardown)
open Tasks (KState Task SpawnEnv maxProc pageSize kstackPages kstackVa kthreaddTask initTask initPid)

/-- `sizeof (struct task)` -/
def taskSize : ℕ := 244

structure MemState where
  vm : VmState
  /-- What `kmalloc` returned and `kfree` has not taken back. -/
  objects : Finset ℕ

namespace MemState

def paging (m : MemState) : PagingState := m.vm.paging

def pool (m : MemState) : Kmalloc.Pool := m.vm.pool

def withPaging (m : MemState) (s : PagingState) : MemState := { m with vm := { m.vm with paging := s } }

end MemState

def kmalloc (size : ℕ) (m : MemState) : Kernel (ℕ × MemState) := do
  let r ← kmallocObject size m.vm
  .ok (r.1, ⟨r.2, if r.1 = 0 then m.objects else insert r.1 m.objects⟩)

def kfree (fuel addr : ℕ) (m : MemState) : Kernel MemState := do
  let vm ← kfreeObject fuel addr m.vm
  .ok ⟨vm, m.objects.erase addr⟩

/-- `free_page` of the first `n` pages of a kernel stack. -/
def freeKstack (base n : ℕ) (s : PagingState) : Kernel PagingState :=
  (List.range n).foldlM (fun s f => freePage (base + f * pageSize) s) s

/-- The loop that maps a kernel stack. If it gives up at a page, the pages before it are unmapped. -/
def mapKstack (base : ℕ) : List ℕ → PagingState → Kernel (Option ℕ × PagingState)
  | [], s => .ok (none, s)
  | p :: l, s => do
    let r ← allocPage (base + p * pageSize) (pagePresent ||| pageRw) s
    if r.1 = 0 then do
      let s ← freeKstack base p r.2
      .ok (some p, s)
    else mapKstack base l r.2

/-- The creators: `exec_fn`, `spawn_user` and `task_fork`. -/
inductive SpawnKind where
  | kthread
  | user (function size : ℕ)
  | fork

namespace SpawnKind

/-- The user half of a new directory. -/
def load (L : Layout) (pid : ℕ) : SpawnKind → PagingState → Kernel (Bool × PagingState)
  | .kthread, s => .ok (true, s)
  | .user function size, s => pagingLoadUserImage L pid function size s
  | .fork, s => pagingForkCopy L pid s

/-- What is undone of a user half that could not be completed: `task_fork` undoes nothing. -/
def unload (L : Layout) (pid : ℕ) : SpawnKind → PagingState → Kernel PagingState
  | .user _ _, s => pagingProcTeardown L pid s
  | _, s => .ok s

end SpawnKind

/-- The kernel stack and the directory of a new task. The answer is how many pages of the stack could be
mapped, and whether the user half was completed. -/
def furnish (L : Layout) (pid : ℕ) (kind : SpawnKind) (s : PagingState) : Kernel ((ℕ × Bool) × PagingState) := do
  let k ← mapKstack (kstackVa pid) (List.range kstackPages) s
  match k.1 with
  | some p => .ok ((p, false), k.2)
  | none => do
    let r ← kind.load L pid (pagingProcInit L pid k.2)
    if r.1 then .ok ((kstackPages, true), r.2)
    else do
      let s ← freeKstack (kstackVa pid) kstackPages r.2
      let s ← kind.unload L pid s
      .ok ((kstackPages, false), s)

/-- All that a creator asks for, once it has a pid. -/
def spawn (L : Layout) (fuel pid : ℕ) (kind : SpawnKind) (m : MemState) : Kernel (SpawnEnv × MemState) := do
  let t ← kmalloc taskSize m
  if t.1 = 0 then .ok (⟨none, 0, false⟩, t.2)
  else do
    let r ← furnish L pid kind t.2.paging
    if r.1.2 then .ok (⟨some t.1, kstackPages, true⟩, t.2.withPaging r.2)
    else do
      let m ← kfree fuel t.1 (t.2.withPaging r.2)
      .ok (⟨some t.1, r.1.1, false⟩, m)

/-- Whether `exec_fn` comes to its `kmalloc`, and with which pid. -/
def kthreadRequest (size : ℕ) (s : KState) : Option (ℕ × SpawnKind) :=
  if size = 0 ∨ maxProc - 1 ≤ s.taskCounter then none else some (s.taskCounter + 1, .kthread)

/-- Whether `spawn_user` does. -/
def spawnRequest (pid function size : ℕ) (parent : Option ℕ) (s : KState) : Option (ℕ × SpawnKind) :=
  match parent with
  | none => none
  | some parent =>
    if size = 0 ∨ pageSize < size ∨ parent = kthreaddTask ∨ maxProc - 1 ≤ s.taskCounter then none
    else some (pid, .user function size)

def userRequest (function size : ℕ) (parent : Option ℕ) (s : KState) : Option (ℕ × SpawnKind) :=
  if maxProc - 1 ≤ s.taskCounter then none
  else spawnRequest (s.taskCounter + 1) function size parent s.claimPid

def forkRequest (s : KState) : Option (ℕ × SpawnKind) :=
  if s.current.kstack = 0 ∨ maxProc - 1 ≤ s.taskCounter then none else some (s.taskCounter + 1, .fork)

/-- The calls on the memory that a request leads to. -/
def serve (L : Layout) (fuel : ℕ) (request : Option (ℕ × SpawnKind)) (m : MemState) : Kernel (SpawnEnv × MemState) :=
  match request with
  | none => .ok (⟨none, 0, false⟩, m)
  | some (pid, kind) => spawn L fuel pid kind m

/-- The tasks and the memory of the kernel. -/
structure System where
  tasks : KState
  mem : MemState

def execFn (L : Layout) (fuel addr size : ℕ) (s : System) : Kernel System := do
  let r ← serve L fuel (kthreadRequest size s.tasks) s.mem
  .ok ⟨Tasks.execFn r.1 addr size s.tasks, r.2⟩

def execUserFn (L : Layout) (fuel function size : ℕ) (parent : Option ℕ) (s : System) : Kernel System := do
  let r ← serve L fuel (userRequest function size parent s.tasks) s.mem
  .ok ⟨Tasks.execUserFn r.1 size parent s.tasks, r.2⟩

/-- `task_fork`; the answer `none` is `-1`. -/
def taskFork (L : Layout) (fuel : ℕ) (s : System) : Kernel (Option ℕ × System) := do
  let r ← serve L fuel (forkRequest s.tasks) s.mem
  let t := Tasks.taskFork r.1 s.tasks
  .ok (t.1, ⟨t.2, r.2⟩)

/-- The calls of `task_reap` on the memory. `kmem_free` of the two buffers unmaps no page. -/
def releaseMemory (L : Layout) (fuel zombie : ℕ) (x : Task) (m : MemState) : Kernel MemState := do
  let s ← if x.kstack ≠ 0 then freeKstack x.kstack kstackPages m.paging else .ok m.paging
  let s ← pagingProcTeardown L x.pid s
  kfree fuel zombie (m.withPaging s)

def taskReap (L : Layout) (fuel zombie : ℕ) (s : System) : Kernel System := do
  let tasks ← Tasks.taskReap fuel zombie s.tasks
  let mem ← releaseMemory L fuel zombie (s.tasks.task zombie) s.mem
  .ok ⟨tasks, mem⟩

end HekaOS.TaskMemory
