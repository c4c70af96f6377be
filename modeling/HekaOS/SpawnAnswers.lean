import HekaOS.PidCapacity
import HekaOS.Furnish

/-!
# What the creators make of an answer

A creator adds its task exactly if it was granted all that it asked for: then the task has the struct that
`kmalloc` returned and the pid that was asked for. Otherwise no task came and no pid is taken.
-/

namespace HekaOS.TaskMemory
open KernelMemory Tasks

variable {s t u : KState} {env : SpawnEnv} {op : KOp} {kind : SpawnKind} {parent : Option ℕ}
  {a b c p pid pages function size addr : ℕ}

/-- What an operation asks the memory for, and the answer it goes by. The image of a user task is at `function`. -/
def asks (function : ℕ) (s : KState) : KOp → Option (SpawnEnv × Option (ℕ × SpawnKind))
  | .execInitFn env size => some (env, spawnRequest initPid function size (some initTask) s)
  | .execFn env _ size => some (env, kthreadRequest size s)
  | .execUserFn env size => some (env, userRequest function size s.initProc s)
  | .syscall env frame => if syscallTable frame.eax = some .fork then some (env.spawn, forkRequest s) else none
  | _ => none

/-- What an operation means for the tasks in use, the pids that are taken and the task on the CPU. -/
inductive RollStep (op : KOp) (s t : KState) : Prop
  | same (hlive : t.live = s.live) (hcounter : t.taskCounter = s.taskCounter) (hinit : t.initProc = s.initProc)
      (hcurrent : (∃ fuel, op = .tick fuel) ∨ t.currentTask = s.currentTask)
  | joined (p c : ℕ) (hp : op.Bears s p) (hfresh : c ∉ s.live) (hlive : t.live = insert c s.live)
      (hcurrent : t.currentTask = s.currentTask) (hnum : Numbered op c s t)
  | left (z : ℕ) (hz : op.Reaps s z) (hlive : t.live = s.live.erase z) (hcounter : t.taskCounter = s.taskCounter)
      (hinit : t.initProc = s.initProc) (hcurrent : t.currentTask = s.currentTask)

theorem rollStep (hs : s.needResched = false) (h : KStep op s t) : RollStep op s t := by
  cases step_cases hs h with
  | calm h => exact .same h.rest.live h.rest.taskCounter h.rest.initProc (.inr h.rest.currentTask)
  | blocks hscan h =>
    subst h
    exact .same rfl rfl rfl (.inr rfl)
  | exits a hends hlisted h => exact .same h.globals.live h.globals.taskCounter h.globals.initProc (.inr h.globals.currentTask)
  | switched u htick hu h =>
    have hrest := h.calm.rest
    have hsame : u.live = s.live ∧ u.taskCounter = s.taskCounter ∧ u.initProc = s.initProc := by
      rcases hu with hcalm | ⟨-, hexits⟩
      · exact ⟨hcalm.rest.live, hcalm.rest.taskCounter, hcalm.rest.initProc⟩
      · exact ⟨hexits.globals.live, hexits.globals.taskCounter, hexits.globals.initProc⟩
    exact .same (hrest.live.trans hsame.1) (hrest.taskCounter.trans hsame.2.1) (hrest.initProc.trans hsame.2.2) (.inl htick)
  | born p c hp h hinit hnum =>
    have hrest := h.rest
    exact .joined p c hp h.fresh (by rw [hrest]) (by rw [hrest]) hnum
  | reaped z fuel u hz hu h =>
    have hrest := taskReap_rest h
    exact .left z hz (by rw [hrest, hu]) (by rw [hrest, hu]) (by rw [hrest, hu]) (by rw [hrest, hu])

/-! ### Who is new -/

theorem SpawnCase.live_subset (h : SpawnCase env p s t) (hb : b ∈ t.live) : b ∈ s.live ∨ env.kmalloc = some b := by
  cases h with
  | failed h =>
    rw [h.rest] at hb
    exact .inl hb
  | born c u hroom hc hu ht =>
    have hlive : t.live = insert c s.live := by
      rw [ht, linkTask, linksOnly_addChild.rest, hu.rest]
      rfl
    rw [hlive] at hb
    rcases Finset.mem_insert.mp hb with rfl | hb
    · exact .inr hc
    · exact .inl hb

theorem fork_run {env : SysEnv} {frame : TrapFrame} (hfork : syscallTable frame.eax = some .fork)
    (h : (KOp.syscall env frame).run s = some t) :
    t = { (Tasks.taskFork env.spawn { s with interruptFlag := false }).2 with interruptFlag := true } := by
  obtain ⟨rfl, -⟩ := afterCall_eq_some h
  unfold syscallDispatch
  simp only [hfork, setEax_state, syscallHandler, sysFork]
  split <;> simp_all

/-- A fork is the only call that asks for anything. -/
theorem asks_fork {env' : SysEnv} {frame : TrapFrame} {r : Option (ℕ × SpawnKind)}
    (h : asks function s (.syscall env' frame) = some (env, r)) :
    syscallTable frame.eax = some .fork ∧ env'.spawn = env ∧ forkRequest s = r := by
  rw [asks] at h
  split at h
  · rename_i hfork
    obtain ⟨henv, hr⟩ := Prod.mk.inj (Option.some.inj h)
    exact ⟨hfork, henv, hr⟩
  · cases h

/-- A new task has the struct that `kmalloc` returned. -/
theorem asks_live {r : Option (ℕ × SpawnKind)} (hasks : asks function s op = some (env, r)) (h : KStep op s t)
    (hb : b ∈ t.live) : b ∈ s.live ∨ env.kmalloc = some b := by
  obtain ⟨hallowed, hrun⟩ := h
  cases op with
  | execInitFn env' size =>
    obtain rfl : env' = env := (Prod.mk.inj (Option.some.inj hasks)).1
    obtain rfl := Option.some.inj hrun
    rcases execInitFn_cases size hallowed.1 with ⟨u, hu, h⟩ | ⟨c, u, hc, hu, h⟩
    · rw [h, hu.rest] at hb
      exact .inl hb
    · have hlive : (execInitFn env' size s).live = insert c s.live := by
        rw [h]
        change (taskAddChild initTask c u).live = _
        rw [linksOnly_addChild.rest, hu.rest]
      rw [hlive] at hb
      rcases Finset.mem_insert.mp hb with rfl | hb
      · exact .inr hc
      · exact .inl hb
  | execFn env' addr size =>
    obtain rfl : env' = env := (Prod.mk.inj (Option.some.inj hasks)).1
    obtain rfl := Option.some.inj hrun
    exact SpawnCase.live_subset (execFn_cases hallowed) hb
  | execUserFn env' size =>
    obtain rfl : env' = env := (Prod.mk.inj (Option.some.inj hasks)).1
    obtain rfl := Option.some.inj hrun
    rcases execUserFn_cases hallowed with h | ⟨p, hp, h⟩
    · rw [h.rest] at hb
      exact .inl hb
    · exact SpawnCase.live_subset h hb
  | syscall env' frame =>
    obtain ⟨hfork, rfl, -⟩ := asks_fork hasks
    have hcase : SpawnCase env'.spawn s.currentTask { s with interruptFlag := false } _ :=
      taskFork_cases (s := { s with interruptFlag := false }) hallowed.1
    rw [fork_run hfork hrun] at hb
    have hsub := SpawnCase.live_subset (b := b) hcase
    exact hsub hb
  | _ => cases hasks

/-! ### Refusals -/

theorem execFn_refused (ha : a ∉ s.live) (hc : env.kmalloc = some a) (h : env.kstackPages < kstackPages) :
    a ∉ (Tasks.execFn env addr size s).live := by
  unfold Tasks.execFn
  split
  · exact ha
  split
  · rename_i heq
    obtain ⟨-, rfl⟩ := pidAlloc_eq_none heq
    exact ha
  · simp only [hc, allocKstack, if_neg (Nat.not_le.mpr h)]
    exact Finset.notMem_erase a _

theorem spawnUser_refused (ha : a ∉ s.live) (hc : env.kmalloc = some a) (h : env.userImage = false) :
    a ∉ (spawnUser env pid size parent s).2.live := by
  unfold spawnUser
  split
  · exact ha
  split
  · exact ha
  · simp only [hc, h]
    unfold allocKstack
    split
    · exact Finset.notMem_erase a _
    · rename_i heq
      split at heq
      · exact Finset.notMem_erase a _
      · cases heq

theorem taskFork_refused (ha : a ∉ s.live) (hc : env.kmalloc = some a) (h : env.userImage = false) :
    a ∉ (Tasks.taskFork env s).2.live := by
  unfold Tasks.taskFork
  split
  · exact ha
  split
  · rename_i heq
    obtain ⟨-, rfl⟩ := pidAlloc_eq_none heq
    exact ha
  · simp only [hc, h]
    unfold allocKstack
    split
    · exact Finset.notMem_erase a _
    · exact Finset.notMem_erase a _

theorem execUserFn_refused (ha : a ∉ s.live) (hc : env.kmalloc = some a) (h : env.userImage = false) :
    a ∉ (Tasks.execUserFn env size parent s).live := by
  unfold Tasks.execUserFn
  split
  · rename_i heq
    obtain ⟨-, rfl⟩ := pidAlloc_eq_none heq
    exact ha
  · rename_i pid u heq
    obtain ⟨-, rfl, rfl⟩ := pidAlloc_eq_some heq
    have hspawn : a ∉ (spawnUser env (s.taskCounter + 1) size parent s.claimPid).2.live :=
      spawnUser_refused (s := s.claimPid) ha hc h
    generalize spawnUser env (s.taskCounter + 1) size parent s.claimPid = r at hspawn ⊢
    obtain ⟨o, w⟩ := r
    cases o <;> exact hspawn

theorem taskFork_adds (h : env.Available s) (hkstack : s.current.kstack ≠ 0) (hroom : s.taskCounter < maxProc - 1) :
    AddsTask s (Tasks.taskFork env s).2 := by
  obtain ⟨c, hc⟩ := Option.ne_none_iff_exists'.mp h.kmalloc
  have hpid := pidAlloc_room hroom
  have hblank : Blank c (s.taskCounter + 1) s.claimPid _ := allocKstack_eq (allocKstack_available h _ _)
  unfold Tasks.taskFork
  simp only [if_neg hkstack, hpid, hc, allocKstack_available h, h.image, Bool.not_true, Bool.false_eq_true, if_false]
  exact (hblank.modify hblank.state.symm rfl rfl).addsTask (h.fresh c hc)

/-! ### The operations -/

theorem spawnRequest_some (h : spawnRequest pid function size (some p) s = some (c, kind)) :
    ValidImage size p ∧ s.taskCounter < maxProc - 1 ∧ c = pid ∧ kind = .user function size := by
  unfold spawnRequest at h
  dsimp only at h
  split at h
  · cases h
  · rename_i hguard
    obtain ⟨rfl, rfl⟩ := Prod.mk.inj (Option.some.inj h)
    refine ⟨⟨?_, ?_, ?_⟩, ?_, rfl, rfl⟩
    · omega
    · omega
    · exact fun hp => hguard (.inr (.inr (.inl hp)))
    · omega

theorem spawnAt_available (ha : a ∉ s.live) : (⟨some a, kstackPages, true⟩ : SpawnEnv).Available s :=
  ⟨spawnAt_fresh ha, nofun, le_rfl, rfl⟩

/-- With all that it asked for, an operation adds a task. -/
theorem asks_adds (hasks : asks function s op = some (⟨some a, kstackPages, true⟩, some (pid, kind))) (ha : a ∉ s.live)
    (h : KStep op s t) : t.live ≠ s.live := by
  have hadds : ∀ {u : KState}, AddsTask s u → u.live ≠ s.live := fun hu he => not_addsTask he hu
  obtain ⟨hallowed, hrun⟩ := h
  cases op with
  | execInitFn env size =>
    obtain ⟨rfl, hrequest⟩ := Prod.mk.inj (Option.some.inj hasks)
    obtain rfl := Option.some.inj hrun
    obtain ⟨hvalid, hroom, -, -⟩ := spawnRequest_some hrequest
    obtain ⟨c, u, hc, hu, hspawn⟩ := @spawnUser_adds _ _ initPid _ _ (spawnAt_available ha) hvalid hroom
    intro he
    have hlive : (Tasks.execInitFn ⟨some a, kstackPages, true⟩ size s).live = insert c s.live := by
      unfold Tasks.execInitFn
      rw [hspawn]
      change (taskAddChild initTask c u).live = _
      rw [linksOnly_addChild.rest, hu.rest]
    exact hc (he ▸ hlive ▸ Finset.mem_insert_self c _)
  | execFn env addr size =>
    obtain ⟨rfl, hrequest⟩ := Prod.mk.inj (Option.some.inj hasks)
    obtain rfl := Option.some.inj hrun
    unfold kthreadRequest at hrequest
    split at hrequest
    · cases hrequest
    · rename_i hguard
      exact hadds (execFn_adds (spawnAt_available ha) (fun hz => hguard (.inl hz)) (by omega))
  | execUserFn env size =>
    obtain ⟨rfl, hrequest⟩ := Prod.mk.inj (Option.some.inj hasks)
    obtain rfl := Option.some.inj hrun
    unfold userRequest at hrequest
    split at hrequest
    · cases hrequest
    cases hp : s.initProc with
    | none =>
      rw [hp] at hrequest
      cases hrequest
    | some p =>
      rw [hp] at hrequest
      obtain ⟨hvalid, hroom, -, -⟩ := spawnRequest_some hrequest
      exact hadds (execUserFn_adds (spawnAt_available ha) hvalid hroom)
  | syscall env frame =>
    obtain ⟨hfork, henv, hrequest⟩ := asks_fork hasks
    unfold forkRequest at hrequest
    split at hrequest
    · cases hrequest
    rename_i hguard
    have hroom : s.taskCounter < maxProc - 1 := by omega
    have hforked : AddsTask { s with interruptFlag := false } _ :=
      taskFork_adds (s := { s with interruptFlag := false }) (spawnAt_available ha) (fun hz => hguard (.inl hz)) hroom
    rw [fork_run hfork hrun, henv]
    exact fun he => not_addsTask he hforked
  | _ => cases hasks

/-- Without the image or the stack, an operation adds no task. -/
theorem asks_refuses (hasks : asks function s op = some (⟨some a, pages, false⟩, some (pid, kind)))
    (hpages : kind = .kthread → pages < kstackPages) (ha : a ∉ s.live) (h : KStep op s t) : a ∉ t.live := by
  obtain ⟨hallowed, hrun⟩ := h
  cases op with
  | execInitFn env size =>
    obtain ⟨rfl, -⟩ := Prod.mk.inj (Option.some.inj hasks)
    obtain rfl := Option.some.inj hrun
    have hspawn : a ∉ (spawnUser ⟨some a, pages, false⟩ initPid size (some initTask) s).2.live := spawnUser_refused ha rfl rfl
    unfold Tasks.execInitFn
    generalize spawnUser ⟨some a, pages, false⟩ initPid size (some initTask) s = r at hspawn ⊢
    exact hspawn
  | execFn env addr size =>
    obtain ⟨rfl, hrequest⟩ := Prod.mk.inj (Option.some.inj hasks)
    obtain rfl := Option.some.inj hrun
    unfold kthreadRequest at hrequest
    split at hrequest
    · cases hrequest
    · obtain ⟨-, rfl⟩ := Prod.mk.inj (Option.some.inj hrequest)
      exact execFn_refused ha rfl (hpages rfl)
  | execUserFn env size =>
    obtain ⟨rfl, -⟩ := Prod.mk.inj (Option.some.inj hasks)
    obtain rfl := Option.some.inj hrun
    have hrefused : a ∉ (Tasks.execUserFn ⟨some a, pages, false⟩ size s.initProc s).live := execUserFn_refused ha rfl rfl
    exact hrefused
  | syscall env frame =>
    obtain ⟨hfork, henv, -⟩ := asks_fork hasks
    have hrefused : a ∉ (Tasks.taskFork ⟨some a, pages, false⟩ { s with interruptFlag := false }).2.live :=
      taskFork_refused ha rfl rfl
    rw [fork_run hfork hrun, henv]
    exact hrefused
  | _ => cases hasks

/-- The pid that is asked for. -/
theorem asks_pid (hasks : asks function s op = some (env, some (pid, kind))) :
    pid = (if op.inits = true then initPid else s.taskCounter + 1) ∧ kind.Sized ∧ s.taskCounter < maxProc - 1 := by
  cases op with
  | execInitFn env' size =>
    obtain ⟨-, hrequest⟩ := Prod.mk.inj (Option.some.inj hasks)
    obtain ⟨hvalid, hroom, rfl, rfl⟩ := spawnRequest_some hrequest
    exact ⟨rfl, ⟨hvalid.pos, hvalid.page⟩, hroom⟩
  | execFn env' addr size =>
    obtain ⟨-, hrequest⟩ := Prod.mk.inj (Option.some.inj hasks)
    unfold kthreadRequest at hrequest
    split at hrequest
    · cases hrequest
    · obtain ⟨rfl, rfl⟩ := Prod.mk.inj (Option.some.inj hrequest)
      exact ⟨rfl, trivial, by omega⟩
  | execUserFn env' size =>
    obtain ⟨-, hrequest⟩ := Prod.mk.inj (Option.some.inj hasks)
    unfold userRequest at hrequest
    split at hrequest
    · cases hrequest
    cases hp : s.initProc with
    | none =>
      rw [hp] at hrequest
      cases hrequest
    | some p =>
      rw [hp] at hrequest
      obtain ⟨hvalid, hroom, rfl, rfl⟩ := spawnRequest_some hrequest
      exact ⟨rfl, ⟨hvalid.pos, hvalid.page⟩, by omega⟩
  | syscall env' frame =>
    obtain ⟨-, -, hrequest⟩ := asks_fork hasks
    unfold forkRequest at hrequest
    split at hrequest
    · cases hrequest
    · obtain ⟨rfl, rfl⟩ := Prod.mk.inj (Option.some.inj hrequest)
      exact ⟨rfl, trivial, by omega⟩
  | _ => cases hasks

end HekaOS.TaskMemory
