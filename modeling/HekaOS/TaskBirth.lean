import HekaOS.KernelSteps
import HekaOS.TaskLinks

/-!
# What creating a task does

`exec_fn`, `exec_user_fn`, `exec_init_fn` and `task_fork` either fail and leave everything in
use untouched, or put one new task under its parent and in front of the scheduler list.
-/

namespace HekaOS.Tasks
open KernelMemory PointerChain

variable {s t u : KState} {a c p pid : ℕ} {env : SpawnEnv} {f : Task → Task}

/-- Only memory that is not in use and the trace differ. -/
structure Beside (c : Option ℕ) (s t : KState) : Prop where
  task : ∀ a, c ≠ some a → t.task a = s.task a
  rest : t = { s with task := t.task, trace := t.trace }

/-- A struct was allocated and filled in, but not linked to anything. -/
structure Blank (c pid : ℕ) (s u : KState) : Prop where
  task : ∀ a, a ≠ c → u.task a = s.task a
  state : (u.task c).state = .runnable
  children : (u.task c).children = none
  pid : (u.task c).pid = pid
  rest : u = { s with task := u.task, trace := u.trace, live := insert c s.live }

/-- A pid was claimed from `pid_alloc`. -/
def KState.claimPid (s : KState) : KState := { s with taskCounter := s.taskCounter + 1 }

inductive SpawnCase (env : SpawnEnv) (p : ℕ) (s t : KState) : Prop where
  | failed (h : Beside env.kmalloc s t)
  | born (c : ℕ) (u : KState) (hroom : s.taskCounter < maxProc - 1) (hc : env.kmalloc = some c)
      (hu : Blank c (s.taskCounter + 1) s.claimPid u) (ht : t = linkTask c (taskAddChild p c u))

theorem Beside.refl (c : Option ℕ) (s : KState) : Beside c s s := ⟨fun _ _ => rfl, rfl⟩

theorem pidAlloc_eq_none (h : pidAlloc s = (none, t)) : maxProc - 1 ≤ s.taskCounter ∧ t = s := by
  unfold pidAlloc at h
  split at h
  · rename_i hfull
    exact ⟨hfull, (Prod.mk.inj h).2.symm⟩
  · exact nomatch (Prod.mk.inj h).1

theorem pidAlloc_eq_some (h : pidAlloc s = (some pid, t)) :
    s.taskCounter < maxProc - 1 ∧ pid = s.taskCounter + 1 ∧ t = s.claimPid := by
  unfold pidAlloc at h
  split at h
  · exact nomatch (Prod.mk.inj h).1
  · rename_i hroom
    obtain ⟨hpid, ht⟩ := Prod.mk.inj h
    exact ⟨Nat.lt_of_not_le hroom, (Option.some.inj hpid).symm, ht.symm⟩

theorem pidAlloc_room (hroom : s.taskCounter < maxProc - 1) : pidAlloc s = (some (s.taskCounter + 1), s.claimPid) := by
  rw [pidAlloc, if_neg (Nat.not_le_of_lt hroom)]
  rfl

/-- Filling in a new struct. -/
theorem Blank.modify (h : Blank c pid s u) (h₁ : (f (u.task c)).state = (u.task c).state)
    (h₂ : (f (u.task c)).children = (u.task c).children) (h₃ : (f (u.task c)).pid = (u.task c).pid) :
    Blank c pid s (u.modify c f) := by
  refine ⟨fun a ha => ?_, ?_, ?_, ?_, ?_⟩
  · rw [u.modify_task_of_ne f ha, h.task a ha]
  · rw [u.modify_task_self, h₁, h.state]
  · rw [u.modify_task_self, h₂, h.children]
  · rw [u.modify_task_self, h₃, h.pid]
  · have := h.rest
    unfold KState.modify
    rw [this]

/-- The struct behind `kmalloc`, `memset` and the loop for the kernel stack. -/
theorem allocKstack_blank : Blank c pid s (allocKstack env pid (allocTask c pid s)).2 := by
  obtain ⟨tr, h⟩ := traceOnly_allocKstack env pid (allocTask c pid s)
  rw [h]
  have hself : (allocTask c pid s).task c = { pid := pid } := Function.update_self _ _ _
  refine ⟨fun a ha => allocTask_task_of_ne ha, ?_, ?_, ?_, rfl⟩
  · exact congrArg Task.state hself
  · exact congrArg Task.children hself
  · exact congrArg Task.pid hself

theorem allocKstack_eq {b : Bool} (h : allocKstack env pid (allocTask c pid s) = (b, t)) : Blank c pid s t := by
  have hblank : Blank c pid s (allocKstack env pid (allocTask c pid s)).2 := allocKstack_blank
  rwa [h] at hblank

/-- A struct that is given back. -/
theorem Blank.freeTask (h : Blank c pid s u) (hc : c ∉ s.live) (hut : TraceOnly u t) :
    Beside (some c) s (freeTask c t) := by
  obtain ⟨tr, rfl⟩ := hut
  refine ⟨fun a ha => h.task a fun he => ha (congrArg some he.symm), ?_⟩
  unfold Tasks.freeTask KState.call
  rw [h.rest]
  simp only [Finset.erase_insert hc]

/-- `pid_release` takes the claim back. -/
theorem Blank.beside (h : Blank c pid s u) (hfresh : env.Fresh s) (hc : env.kmalloc = some c) (hut : TraceOnly u t) :
    Beside env.kmalloc s (Tasks.freeTask c t) := by
  rw [hc]
  exact h.freeTask (hfresh c hc) hut

theorem Beside.pidRelease {c : Option ℕ} (h : Beside c s.claimPid t) : Beside c s (pidRelease t) := by
  refine ⟨h.task, ?_⟩
  unfold Tasks.pidRelease
  rw [h.rest]
  rfl

/-- The last store to the state of a new task finds it in place. -/
theorem Blank.born (h : Blank c pid s u) :
    ((linkTask c (taskAddChild p c u)).modify c fun x => { x with state := .runnable }) =
      linkTask c (taskAddChild p c u) := by
  have hstate : ((linkTask c (taskAddChild p c u)).task c).state = .runnable := by
    rw [linkTask_field Task.state fun _ _ => rfl, linksOnly_addChild.state, h.state]
  generalize linkTask c (taskAddChild p c u) = v at hstate ⊢
  have hself : ({ v.task c with state := .runnable } : Task) = v.task c := by rw [← hstate]
  simp only [KState.modify, hself, Function.update_eq_self]

theorem execFn_cases {addr size : ℕ} (hfresh : env.Fresh s) :
    SpawnCase env kthreaddTask s (execFn env addr size s) := by
  unfold execFn
  split
  · exact .failed (.refl _ s)
  split
  · rename_i heq
    obtain ⟨-, rfl⟩ := pidAlloc_eq_none heq
    exact .failed (.refl _ _)
  · rename_i pid u heq
    obtain ⟨hroom, rfl, rfl⟩ := pidAlloc_eq_some heq
    split
    · exact .failed (Beside.refl _ _).pidRelease
    · rename_i c hc
      split
      · rename_i v heq'
        have hblank : Blank c _ s.claimPid v := allocKstack_eq heq'
        exact .failed (hblank.beside hfresh hc ⟨v.trace, rfl⟩).pidRelease
      · rename_i v heq'
        have hblank : Blank c _ s.claimPid v := allocKstack_eq heq'
        exact .born c _ hroom hc (hblank.modify rfl rfl rfl) (hblank.modify rfl rfl rfl).born

theorem spawnUser_cases (pid size : ℕ) (parent : Option ℕ) (hfresh : env.Fresh s) :
    ((spawnUser env pid size parent s).1 = none ∧ Beside env.kmalloc s (spawnUser env pid size parent s).2) ∨
      ∃ p c u, parent = some p ∧ env.kmalloc = some c ∧ Blank c pid s u ∧
        spawnUser env pid size parent s = (some c, linkTask c (taskAddChild p c u)) := by
  unfold spawnUser
  split
  · exact .inl ⟨rfl, .refl _ s⟩
  rename_i p
  split
  · exact .inl ⟨rfl, .refl _ s⟩
  split
  · exact .inl ⟨rfl, .refl _ s⟩
  · rename_i c hc
    split
    · rename_i v heq
      have hblank : Blank c pid s v := allocKstack_eq heq
      exact .inl ⟨rfl, hblank.beside hfresh hc ⟨v.trace, rfl⟩⟩
    · rename_i v heq
      have hblank : Blank c pid s v := allocKstack_eq heq
      split
      · left
        refine ⟨rfl, hblank.beside hfresh hc ?_⟩
        exact (traceOnly_freeKstack _ _ v).trans (traceOnly_call _ _)
      · exact .inr ⟨p, c, _, rfl, hc, hblank.modify rfl rfl rfl,
          congrArg (Prod.mk (some c)) (hblank.modify rfl rfl rfl).born⟩

theorem execUserFn_cases {size : ℕ} {parent : Option ℕ} (hfresh : env.Fresh s) :
    Beside env.kmalloc s (execUserFn env size parent s) ∨
      ∃ p, parent = some p ∧ SpawnCase env p s (execUserFn env size parent s) := by
  unfold execUserFn
  split
  · rename_i heq
    obtain ⟨-, rfl⟩ := pidAlloc_eq_none heq
    exact .inl (.refl _ _)
  · rename_i pid u heq
    obtain ⟨hroom, rfl, rfl⟩ := pidAlloc_eq_some heq
    have hfresh' : env.Fresh s.claimPid := hfresh
    have hspawn := spawnUser_cases (s.taskCounter + 1) size parent hfresh'
    generalize spawnUser env (s.taskCounter + 1) size parent s.claimPid = r at hspawn ⊢
    rcases hspawn with ⟨hnone, hbeside⟩ | ⟨p, c, v, hp, hc, hblank, rfl⟩
    · obtain ⟨r, w⟩ := r
      obtain rfl : r = none := hnone
      exact .inl hbeside.pidRelease
    · exact .inr ⟨p, hp, .born c v hroom hc hblank rfl⟩

theorem execInitFn_cases (size : ℕ) (hfresh : env.Fresh s) :
    (∃ u, Beside env.kmalloc s u ∧ execInitFn env size s = { u with initProc := none }) ∨
      ∃ c u, env.kmalloc = some c ∧ Blank c initPid s u ∧ execInitFn env size s =
        { linkTask c (taskAddChild initTask c u) with initProc := some c } := by
  unfold execInitFn
  have hspawn := spawnUser_cases initPid size (some initTask) hfresh
  generalize spawnUser env initPid size (some initTask) s = r at hspawn ⊢
  rcases hspawn with ⟨hnone, hbeside⟩ | ⟨p, c, v, hp, hc, hblank, rfl⟩
  · obtain ⟨r, w⟩ := r
    obtain rfl : r = none := hnone
    exact .inl ⟨w, hbeside, rfl⟩
  · obtain rfl := Option.some.inj hp
    exact .inr ⟨c, v, hc, hblank, rfl⟩

theorem taskFork_cases (hfresh : env.Fresh s) : SpawnCase env s.currentTask s (taskFork env s).2 := by
  unfold taskFork
  split
  · exact .failed (.refl _ s)
  split
  · rename_i heq
    obtain ⟨-, rfl⟩ := pidAlloc_eq_none heq
    exact .failed (.refl _ _)
  · rename_i pid u heq
    obtain ⟨hroom, rfl, rfl⟩ := pidAlloc_eq_some heq
    split
    · exact .failed (Beside.refl _ _).pidRelease
    · rename_i c hc
      split
      · rename_i v heq'
        have hblank : Blank c _ s.claimPid v := allocKstack_eq heq'
        exact .failed (hblank.beside hfresh hc ⟨v.trace, rfl⟩).pidRelease
      · rename_i v heq'
        have hblank : Blank c _ s.claimPid v := allocKstack_eq heq'
        split
        · exact .failed (hblank.beside hfresh hc (traceOnly_freeKstack _ _ v)).pidRelease
        · have hcur : v.currentTask = s.currentTask := by
            rw [hblank.rest]
            rfl
          rw [← hcur]
          refine .born c _ hroom hc (hblank.modify ?_ rfl rfl) rfl
          exact hblank.state.symm

end HekaOS.Tasks
