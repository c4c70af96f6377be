import HekaOS.PidLedger

/-!
# When `pid_alloc` refuses

`task_reap` gives no pid back, so `pid_alloc` refuses after `MAX_PROC - 3` tasks of `exec_fn`,
`exec_user_fn` and `task_fork`, however many of them are gone.
-/

namespace HekaOS.Tasks
open KernelMemory PointerChain

variable {s t u : KState} {L : Ledger} {a c n : ℕ}

/-- The tasks in use that got their pid from `pid_alloc`. -/
def KState.dynamicTasks (s : KState) : Finset ℕ := s.live.filter fun a => 3 ≤ (s.task a).pid

theorem pidAlloc_refuses : (pidAlloc s).1 = none ↔ maxProc - 1 ≤ s.taskCounter := by
  unfold pidAlloc
  split <;> simp_all

/-- The tasks of `exec_fn`, `exec_user_fn` and `task_fork` are in use or were reaped. -/
theorem Roster.dynamic_card (h : Roster s L) :
    s.dynamicTasks.card + (L.reaped.filter (3 ≤ ·)).card = L.spawned.card := by
  have hlive : ((s.pids s.live).filter (3 ≤ ·)).card = s.dynamicTasks.card := by
    rw [KState.pids, Multiset.filter_map, Multiset.card_map]
    rfl
  have hboot : L.boot.filter (3 ≤ ·) = 0 := by
    apply Multiset.filter_eq_nil.mpr
    intro pid hp
    exact Nat.not_le_of_lt (h.boot_lt pid hp)
  have hspawned : L.spawned.filter (3 ≤ ·) = L.spawned := by
    apply Multiset.filter_eq_self.mpr
    intro pid hp
    exact (h.mem_spawned.mp hp).1
  have hkept := congrArg (fun m => (m.filter (3 ≤ ·)).card) h.kept
  simp only [Multiset.filter_add, Multiset.card_add, hlive, hboot, hspawned, zero_add] at hkept
  exact hkept

theorem pids_refused_only_when_full (s : KState) (L : Ledger) (h : PidRun s L) :
    ((pidAlloc s).1 = none → s.dynamicTasks.card = maxProc - 3) ↔
      (L.spawned.card < maxProc - 3 ∨ ∀ pid ∈ L.reaped, pid < 3) := by
  have hr := h.roster
  have hcard := hr.dynamic_card
  have hspawned := hr.card_spawned
  have hcounter := hr.counter
  have hreaped : (L.reaped.filter (3 ≤ ·)).card = 0 ↔ ∀ pid ∈ L.reaped, pid < 3 := by
    rw [Multiset.card_eq_zero, Multiset.filter_eq_nil]
    exact forall₂_congr fun pid _ => Nat.not_le
  rw [pidAlloc_refuses, ← hreaped]
  simp only [maxProc] at hcounter ⊢
  omega

/-- A creation by `exec_fn` while every allocation succeeds. -/
theorem execFn_spawnAt (hroom : s.taskCounter < maxProc - 1) :
    ∃ u, Blank c (s.taskCounter + 1) s.claimPid u ∧
      execFn (spawnAt c) 0 1 s = linkTask c (taskAddChild kthreaddTask c u) := by
  have hpid := pidAlloc_room hroom
  have hblank : Blank c (s.taskCounter + 1) s.claimPid
      (allocKstack (spawnAt c) (s.taskCounter + 1) (allocTask c (s.taskCounter + 1) s.claimPid)).2 :=
    allocKstack_blank
  unfold execFn
  rw [if_neg one_ne_zero, hpid]
  exact ⟨_, hblank.modify rfl rfl rfl, (hblank.modify rfl rfl rfl).born⟩

/-- The first child of `kthreadd_task`, in front of the scheduler list and without children. -/
structure Newest (c : ℕ) (s : KState) : Prop where
  ne : c ≠ kthreaddTask
  head : s.taskListHead = some c
  parent : (s.task c).parent = some kthreaddTask
  children : (s.task c).children = none
  first : (s.task kthreaddTask).children = some c

theorem newest_execFn (hc : c ∉ s.live) (hk : kthreaddTask ∈ s.live) (hroom : s.taskCounter < maxProc - 1) :
    Newest c (execFn (spawnAt c) 0 1 s) := by
  have hne : c ≠ kthreaddTask := fun he => hc (he ▸ hk)
  obtain ⟨u, hu, hrun⟩ := execFn_spawnAt (c := c) hroom
  rw [hrun]
  have ha := childAdded kthreaddTask c u
  refine ⟨hne, rfl, ?_, ?_, ?_⟩
  · rw [linkTask_field Task.parent fun _ _ => rfl, ha.parent, if_pos rfl]
  · rw [linkTask_field Task.children fun _ _ => rfl, ha.children, if_neg hne, hu.children]
  · rw [linkTask_field Task.children fun _ _ => rfl, ha.children, if_pos rfl]

/-- A task without children exits. -/
theorem doExit_newest (h : Newest c s) : ∃ t, doExit 1 c 0 s = .ok t ∧ Newest c t ∧
    (t.task c).state = .zombie ∧ t.live = s.live ∧ t.currentTask = s.currentTask := by
  have hbegin : beginExit c 0 s = s.modify c fun x => { x with exitCode := 0 } := by
    dsimp only [beginExit]
    refine if_neg fun hc => hc.1 ?_
    rw [KState.modify_task_self]
    exact h.children
  generalize hv : (s.modify c fun x => { x with exitCode := 0 }) = v at hbegin
  have hchildren : (v.task c).children = none := by
    rw [← hv, KState.modify_task_self]
    exact h.children
  have horphan : orphanChildren 1 c s.reaper 1 (beginExit c 0 s) = .ok v := by
    rw [hbegin, orphanChildren, hchildren]
  refine ⟨_, by rw [doExit, horphan]; rfl, ?_⟩
  generalize hw : (v.modify c fun x => { x with state := .zombie }) = w
  have hzombie : (w.task c).state = .zombie := by rw [← hw, KState.modify_task_self]
  have hfield : ∀ {α : Type} (g : Task → α), (∀ x e st, g { x with exitCode := e, state := st } = g x) →
      ∀ b, g (w.task b) = g (s.task b) := by
    intro α g hg b
    rw [← hw, v.modify_field c b _ g (hg (v.task c) (v.task c).exitCode .zombie), ← hv]
    exact s.modify_field c b _ g (hg (s.task c) 0 (s.task c).state)
  have hcalm : Calm False w (notifyParent c w) := calm_notifyParent
  have hrest : SameGlobals s w := by
    rw [← hw, ← hv]
    rfl
  refine ⟨⟨h.ne, ?_, ?_, ?_, ?_⟩, ?_, ?_, ?_⟩
  · exact (hcalm.rest.head.trans hrest.head).trans h.head
  · rw [(hcalm.task c).parent, hfield Task.parent fun _ _ _ => rfl]
    exact h.parent
  · rw [(hcalm.task c).children, hfield Task.children fun _ _ _ => rfl]
    exact h.children
  · rw [(hcalm.task kthreaddTask).children, hfield Task.children fun _ _ _ => rfl]
    exact h.first
  · exact (hcalm.task c).zombie.mpr hzombie
  · exact hcalm.rest.live.trans hrest.live
  · exact hcalm.rest.currentTask.trans hrest.currentTask

theorem taskReap_newest (h : Newest c s) : ∃ t, taskReap 1 c s = .ok t := by
  have hunlink : unlinkChild 1 kthreaddTask c s =
      .ok (s.modify kthreaddTask fun x => { x with children := s.sibling c }) := if_pos h.first
  have hdetach : ∃ u, detach 1 c s = .ok u ∧ u.taskListHead = some c := by
    rw [detach, h.parent]
    dsimp only
    rw [taskRemoveChild, hunlink]
    exact ⟨_, rfl, h.head⟩
  obtain ⟨u, hu, hhead⟩ := hdetach
  have hlist : unlinkTask 1 c u = .ok { u with taskListHead := u.next c } := if_pos hhead
  exact ⟨_, bind_eq_ok.mpr ⟨u, hu, bind_eq_ok.mpr ⟨_, hlist, rfl⟩⟩⟩

/-- What a creation by `exec_fn` leaves while every allocation succeeds. -/
structure Spawned (c : ℕ) (s t : KState) : Prop where
  step : KStep (.execFn (spawnAt c) 0 1) s t
  newest : Newest c t
  live : t.live = insert c s.live
  counter : t.taskCounter = s.taskCounter + 1
  running : t.currentTask = s.currentTask

theorem spawned_execFn (hc : c ∉ s.live) (hk : kthreaddTask ∈ s.live) (hroom : s.taskCounter < maxProc - 1) :
    Spawned c s (execFn (spawnAt c) 0 1 s) := by
  obtain ⟨u, hu, hrun⟩ := execFn_spawnAt (c := c) hroom
  refine ⟨⟨spawnAt_fresh hc, rfl⟩, newest_execFn hc hk hroom, ?_, ?_, ?_⟩ <;>
  · rw [hrun, linkTask, linksOnly_addChild.rest, hu.rest]
    rfl

/-- One round of a spawn, an exit and a reap leaves the same tasks and takes a pid. -/
theorem PidRun.churn (h : PidRun s L) (hk : kthreaddTask ∈ s.live) (hroom : s.taskCounter < maxProc - 1) :
    ∃ t L', PidRun t L' ∧ t.live = s.live ∧ t.taskCounter = s.taskCounter + 1 := by
  obtain ⟨c, hc⟩ := Infinite.exists_notMem_finset (insert s.currentTask s.live)
  rw [Finset.mem_insert, not_or] at hc
  obtain ⟨hcur, hc⟩ := hc
  obtain ⟨hstep, hnew, hlive, hcount, hrunning⟩ := spawned_execFn hc hk hroom
  have hspawn := h.step hstep
  generalize execFn (spawnAt c) 0 1 s = v at hstep hspawn hnew hlive hcount hrunning
  obtain ⟨w, hexit, hnew', hzombie, hlive', hrunning'⟩ := doExit_newest hnew
  have hlisted : Listed v c := by
    obtain ⟨order, hl, -⟩ := hspawn.roster.listed
    exact ⟨order, hl, hl.mem_of_head hnew.head⟩
  have hstep' : KStep (.doExit 1 c 0) v w := ⟨hlisted, toOption_eq_some.mpr hexit⟩
  have hcount' : w.taskCounter = v.taskCounter := (exits_doExit hexit).globals.taskCounter
  obtain ⟨x, hreap⟩ := taskReap_newest hnew'
  have hparent : ∃ p ∈ w.live, (w.task c).parent = some p := by
    refine ⟨kthreaddTask, ?_, hnew'.parent⟩
    rw [hlive', hlive]
    exact Finset.mem_insert_of_mem hk
  have hc' : c ∈ w.live := by
    rw [hlive', hlive]
    exact Finset.mem_insert_self c _
  have hne : c ≠ w.currentTask := by
    rw [hrunning', hrunning]
    exact hcur
  have hstep'' : KStep (.reap 1 c) w x :=
    ⟨⟨hc', hne, hzombie, hparent⟩, toOption_eq_some.mpr hreap⟩
  have hrest := taskReap_rest hreap
  refine ⟨x, _, (hspawn.step hstep').step hstep'', ?_, ?_⟩
  · rw [hrest, hlive', hlive, Finset.erase_insert hc]
  · rw [hrest, hcount', hcount]

theorem churned (hn : n ≤ maxProc - 3) :
    ∃ s L, PidRun s L ∧ s.live = {initTask, kthreaddTask} ∧ s.taskCounter = 2 + n := by
  induction n with
  | zero => exact ⟨bootState, bootLedger, .boot ⟨_, _, rfl⟩, rfl, rfl⟩
  | succ n ih =>
    obtain ⟨s, L, hs, hlive, hcount⟩ := ih (Nat.le_of_succ_le hn)
    have hk : kthreaddTask ∈ s.live := by
      rw [hlive]
      decide
    simp only [maxProc] at hn
    have hroom : s.taskCounter < maxProc - 1 := by
      simp only [maxProc]
      omega
    obtain ⟨t, L', ht, hlive', hcount'⟩ := hs.churn hk hroom
    exact ⟨t, L', ht, hlive'.trans hlive, by omega⟩

/-- After 125 rounds of a spawn, an exit and a reap only the two tasks of the boot are left, and no pid. -/
theorem pids_refused_only_when_full_fails : ¬∀ (s : KState) (L : Ledger), PidRun s L →
    (pidAlloc s).1 = none → s.dynamicTasks.card = maxProc - 3 := by
  intro hall
  obtain ⟨s, L, hs, hlive, hcount⟩ := churned (le_refl (maxProc - 3))
  have hrefuses : (pidAlloc s).1 = none := by
    rw [pidAlloc_refuses, hcount]
    decide
  have hcard := hall s L hs hrefuses
  have hle : s.dynamicTasks.card ≤ 2 := by
    refine (Finset.card_filter_le _ _).trans ?_
    rw [hlive]
    decide
  rw [hcard] at hle
  exact absurd hle (by decide)

/-- Spawns alone, `n` of them from the boot on. -/
theorem crowded (hn : n ≤ maxProc - 3) :
    ∃ s L, PidRun s L ∧ kthreaddTask ∈ s.live ∧ s.taskCounter = 2 + n ∧ L.reaped = 0 := by
  induction n with
  | zero => exact ⟨bootState, bootLedger, .boot ⟨_, _, rfl⟩, by decide, rfl, rfl⟩
  | succ n ih =>
    obtain ⟨s, L, hs, hk, hcount, hreaped⟩ := ih (Nat.le_of_succ_le hn)
    obtain ⟨c, hc⟩ := Infinite.exists_notMem_finset s.live
    simp only [maxProc] at hn
    have hroom : s.taskCounter < maxProc - 1 := by
      simp only [maxProc]
      omega
    have hspawned := spawned_execFn hc hk hroom
    refine ⟨_, _, hs.step hspawned.step, ?_, ?_, ?_⟩
    · rw [hspawned.live]
      exact Finset.mem_insert_of_mem hk
    · rw [hspawned.counter, hcount, Nat.add_assoc]
    · have hgone : s.live \ (execFn (spawnAt c) 0 1 s).live = ∅ := by
        rw [hspawned.live]
        exact Finset.sdiff_eq_empty_iff_subset.mpr (Finset.subset_insert _ _)
      rw [Ledger.record, hreaped, hgone]
      rfl

/-- 125 spawns and no reap: `pid_alloc` refuses, and 125 tasks hold the pids it gave. -/
theorem pids_refused_only_when_full_crowded :
    ∃ s L, PidRun s L ∧ (pidAlloc s).1 = none ∧ s.dynamicTasks.card = maxProc - 3 := by
  obtain ⟨s, L, hs, -, hcount, hreaped⟩ := crowded (le_refl (maxProc - 3))
  have hrefuses : (pidAlloc s).1 = none := by
    rw [pidAlloc_refuses, hcount]
    decide
  refine ⟨s, L, hs, hrefuses, (pids_refused_only_when_full s L hs).mpr (.inr fun pid hpid => ?_) hrefuses⟩
  rw [hreaped] at hpid
  exact absurd hpid (Multiset.notMem_zero pid)

end HekaOS.Tasks
