import HekaOS.PidExhaustion

/-!
# The last pid

`exec_user_fn` asks for room twice: `pid_alloc` does before it counts up, and the guard of
`spawn_user` behind it. So the last pid goes to `exec_fn` alone.
-/

namespace HekaOS.Tasks
open KernelMemory

variable {s t u : KState} {c p pid size addr : ℕ} {env : SpawnEnv}

/-- Memory is available for a new task, its kernel stack and its image. -/
structure SpawnEnv.Available (env : SpawnEnv) (s : KState) : Prop where
  fresh : env.Fresh s
  kmalloc : env.kmalloc ≠ none
  kstack : Tasks.kstackPages ≤ env.kstackPages
  image : env.userImage = true

/-- A task with the next pid was added to the scheduler list. -/
def AddsTask (s t : KState) : Prop :=
  ∃ c, c ∉ s.live ∧ t.live = insert c s.live ∧ t.taskListHead = some c ∧ (t.task c).pid = s.taskCounter + 1

theorem allocKstack_available (h : env.Available s) (pid : ℕ) (t : KState) : allocKstack env pid t = (true, t) := by
  rw [allocKstack, if_pos h.kstack]

theorem Blank.addsTask (h : Blank c (s.taskCounter + 1) s.claimPid u) (hc : c ∉ s.live) :
    AddsTask s (linkTask c (taskAddChild p c u)) := by
  have hadd : LinksOnly u (taskAddChild p c u) := linksOnly_addChild
  refine ⟨c, hc, ?_, rfl, ?_⟩
  · rw [linkTask, hadd.rest, h.rest]
    rfl
  · rw [linkTask_field Task.pid fun _ _ => rfl, hadd.field Task.pid fun _ _ _ _ => rfl, h.pid]

theorem not_addsTask (h : t.live = s.live) : ¬AddsTask s t := by
  rintro ⟨c, hc, hlive, -⟩
  rw [h] at hlive
  exact hc (hlive ▸ Finset.mem_insert_self c _)

theorem execFn_adds (h : env.Available s) (hsize : size ≠ 0) (hroom : s.taskCounter < maxProc - 1) :
    AddsTask s (execFn env addr size s) := by
  obtain ⟨c, hc⟩ := Option.ne_none_iff_exists'.mp h.kmalloc
  have hpid := pidAlloc_room hroom
  have hblank : Blank c (s.taskCounter + 1) s.claimPid _ := allocKstack_eq (allocKstack_available h _ _)
  unfold execFn
  simp only [if_neg hsize, hpid, hc, allocKstack_available h]
  rw [(hblank.modify rfl rfl rfl).born]
  exact (hblank.modify rfl rfl rfl).addsTask (h.fresh c hc)

/-- The arguments that `spawn_user` takes. -/
structure ValidImage (size p : ℕ) : Prop where
  pos : 0 < size
  page : size ≤ pageSize
  parent : p ≠ kthreaddTask

theorem spawnUser_adds (h : env.Available s) (hvalid : ValidImage size p) (hroom : s.taskCounter < maxProc - 1) :
    ∃ c u, c ∉ s.live ∧ Blank c pid s u ∧
      spawnUser env pid size (some p) s = (some c, linkTask c (taskAddChild p c u)) := by
  obtain ⟨c, hc⟩ := Option.ne_none_iff_exists'.mp h.kmalloc
  have hguard : ¬(size = 0 ∨ pageSize < size ∨ p = kthreaddTask ∨ maxProc - 1 ≤ s.taskCounter) := by
    have hpos := hvalid.pos
    have hpage := hvalid.page
    have hparent := hvalid.parent
    omega
  have hblank : Blank c pid s _ := allocKstack_eq (allocKstack_available h _ _)
  unfold spawnUser
  simp only [if_neg hguard, hc, allocKstack_available h, h.image, Bool.not_true, Bool.false_eq_true, if_false]
  exact ⟨c, _, h.fresh c hc, hblank.modify rfl rfl rfl, congrArg (Prod.mk (some c)) (hblank.modify rfl rfl rfl).born⟩

/-- `exec_user_fn` adds a task if there is room behind the claim of its pid, too. -/
theorem execUserFn_adds (h : env.Available s) (hvalid : ValidImage size p) (hroom : s.taskCounter + 1 < maxProc - 1) :
    AddsTask s (execUserFn env size (some p) s) := by
  have hpid : pidAlloc s = (some (s.taskCounter + 1), s.claimPid) := pidAlloc_room (by omega)
  have havail : env.Available s.claimPid := ⟨h.fresh, h.kmalloc, h.kstack, h.image⟩
  have hadds : ∃ c u, c ∉ s.claimPid.live ∧ Blank c (s.taskCounter + 1) s.claimPid u ∧
      spawnUser env (s.taskCounter + 1) size (some p) s.claimPid = (some c, linkTask c (taskAddChild p c u)) :=
    spawnUser_adds havail hvalid hroom
  obtain ⟨c, u, hc, hu, hspawn⟩ := hadds
  unfold execUserFn
  simp only [hpid, hspawn]
  exact hu.addsTask hc

/-- Without room behind the claim, the pid is given back. -/
theorem execUserFn_refuses {parent : Option ℕ} (hfull : maxProc - 1 ≤ s.taskCounter + 1) :
    execUserFn env size parent s = s := by
  unfold execUserFn
  by_cases hroom : maxProc - 1 ≤ s.taskCounter
  · simp only [pidAlloc, if_pos hroom]
  · have hspawn : spawnUser env (s.taskCounter + 1) size parent s.claimPid = (none, s.claimPid) := by
      unfold spawnUser
      split
      · rfl
      · exact if_pos (.inr (.inr (.inr hfull)))
    have hpid := pidAlloc_room (Nat.lt_of_not_le hroom)
    simp only [hpid, hspawn]
    rfl

theorem execFn_refuses (hfull : maxProc - 1 ≤ s.taskCounter) : execFn env addr size s = s := by
  unfold execFn
  split
  · rfl
  · simp only [pidAlloc, if_pos hfull]

theorem execFn_adds_iff (h : env.Available s) (hsize : size ≠ 0) :
    AddsTask s (execFn env addr size s) ↔ s.taskCounter < maxProc - 1 := by
  by_cases hroom : s.taskCounter < maxProc - 1
  · exact iff_of_true (execFn_adds h hsize hroom) hroom
  · rw [execFn_refuses (Nat.le_of_not_lt hroom)]
    exact iff_of_false (not_addsTask rfl) hroom

theorem execUserFn_adds_iff (h : env.Available s) (hvalid : ValidImage size p) :
    AddsTask s (execUserFn env size (some p) s) ↔ s.taskCounter + 1 < maxProc - 1 := by
  by_cases hroom : s.taskCounter + 1 < maxProc - 1
  · exact iff_of_true (execUserFn_adds h hvalid hroom) hroom
  · rw [execUserFn_refuses (Nat.le_of_not_lt hroom)]
    exact iff_of_false (not_addsTask rfl) hroom

/-- With memory and valid arguments both spawners add a task with the next pid, or none of them does:
it is up to `pid_alloc`. A refusal leaves the counter alone. -/
structure SpawnersAgree (s : KState) : Prop where
  agree : ∀ env env' addr size size' p, env.Available s → env'.Available s → size ≠ 0 → ValidImage size' p →
    (AddsTask s (execUserFn env' size' (some p) s) ↔ AddsTask s (execFn env addr size s))
  capacity : ∀ env addr size, env.Available s → size ≠ 0 →
    (AddsTask s (execFn env addr size s) ↔ (pidAlloc s).1 ≠ none)
  refusedUser : ∀ env size p, env.Available s → ValidImage size p →
    ¬AddsTask s (execUserFn env size (some p) s) → (execUserFn env size (some p) s).taskCounter = s.taskCounter
  refused : ∀ env addr size, env.Available s → size ≠ 0 →
    ¬AddsTask s (execFn env addr size s) → (execFn env addr size s).taskCounter = s.taskCounter

/-- Memory is available when `kmalloc` returns a struct that is not in use and nothing else fails. -/
theorem exists_available (s : KState) : ∃ env : SpawnEnv, env.Available s := by
  obtain ⟨c, hc⟩ := Infinite.exists_notMem_finset s.live
  exact ⟨spawnAt c, spawnAt_fresh hc, nofun, Nat.le_refl _, rfl⟩

/-- The spawners agree on the capacity in every state but those with a single pid left. -/
theorem spawners_agree_iff (s : KState) : SpawnersAgree s ↔ s.taskCounter ≠ maxProc - 2 := by
  have hpid : (pidAlloc s).1 ≠ none ↔ s.taskCounter < maxProc - 1 := by
    rw [ne_eq, pidAlloc_refuses, Nat.not_le]
  have hlast : (s.taskCounter + 1 < maxProc - 1 ↔ s.taskCounter < maxProc - 1) ↔ s.taskCounter ≠ maxProc - 2 := by
    simp only [maxProc]
    omega
  constructor
  · intro h
    obtain ⟨env, henv⟩ := exists_available s
    have hvalid : ValidImage 1 initTask := ⟨by decide, by decide, by decide⟩
    have hagree := h.agree env env 0 1 1 initTask henv henv one_ne_zero hvalid
    rw [execUserFn_adds_iff henv hvalid, execFn_adds_iff henv one_ne_zero] at hagree
    exact hlast.mp hagree
  · intro h
    refine ⟨fun env env' addr size size' p henv henv' hsize hvalid => ?_, fun env addr size henv hsize => ?_,
      fun env size p henv hvalid hno => ?_, fun env addr size henv hsize hno => ?_⟩
    · rw [execUserFn_adds_iff henv' hvalid, execFn_adds_iff henv hsize]
      exact hlast.mpr h
    · rw [execFn_adds_iff henv hsize, hpid]
    · rw [execUserFn_adds_iff henv hvalid, Nat.not_lt] at hno
      rw [execUserFn_refuses hno]
    · rw [execFn_adds_iff henv hsize, Nat.not_lt] at hno
      rw [execFn_refuses hno]

/-- After 124 rounds of a spawn, an exit and a reap `exec_fn` still gets the pid 127, and `exec_user_fn`
gets none. -/
theorem spawners_agree_fails : ¬∀ (s : KState) (L : Ledger), PidRun s L → SpawnersAgree s := by
  intro hall
  obtain ⟨s, L, hs, -, hcount⟩ := churned (by decide : 124 ≤ maxProc - 3)
  obtain ⟨env, henv⟩ := exists_available s
  have hvalid : ValidImage 1 initTask := ⟨by decide, by decide, by decide⟩
  have hagree := (hall s L hs).agree env env 0 1 1 initTask henv henv one_ne_zero hvalid
  rw [execUserFn_adds_iff henv hvalid, execFn_adds_iff henv one_ne_zero, hcount] at hagree
  exact absurd hagree (by decide)

end HekaOS.Tasks
