import HekaOS.SpawnReturns
import HekaOS.LastFrames
import HekaOS.FirstUser

/-!
# Creators that fail

`exec_fn`, `exec_user_fn` and `task_fork` take a pid, a struct from the chunk pool, a kernel stack and a user half. If
they add no task, the spawners leave no trace of that but on the scratch pages. `task_fork` leaves one where the frames
run out behind the kernel stack.
-/

namespace HekaOS.TaskMemory
open MachineWord KernelMemory KernelTriples PageWalk WordBitmap PhysPageFrame AddressMap Paging Tasks

variable {L : Layout} {k k' : KState} {s t : System} {m : MemState} {kind : SpawnKind} {env : SpawnEnv} {ledger : Ledger}
  {request : Option (ℕ × SpawnKind)} {E : Set ℕ} {T : Finset ℕ} {a function p pid size : ℕ} {parent : Option ℕ}

/-! ### No trace -/

/-- The tasks in use are the same, with all their links. -/
structure SameTasks (k k' : KState) : Prop where
  live : k'.live = k.live
  task : ∀ a ∈ k.live, k'.task a = k.task a
  taskCounter : k'.taskCounter = k.taskCounter
  taskListHead : k'.taskListHead = k.taskListHead
  initProc : k'.initProc = k.initProc
  currentTask : k'.currentTask = k.currentTask

theorem sameTasks_beside {c : Option ℕ} (h : Beside c k k') (hc : ∀ a, c = some a → a ∉ k.live) : SameTasks k k' := by
  have hrest := h.rest
  refine ⟨by rw [hrest], fun a ha => h.task a fun he => hc a he ha, by rw [hrest], by rw [hrest], by rw [hrest], by rw [hrest]⟩

/-- The address is on one of the two scratch pages. -/
def OnScratch (va : ℕ) : Prop := Scratch (pdIndex va) (ptIndex va)

/-- Tasks, objects of the chunk pool, free frames and the translations of the current directory are as before, but for
the addresses `out`. -/
structure NoTrace (out : ℕ → Prop) (s t : System) : Prop where
  tasks : SameTasks s.tasks t.tasks
  objects : t.mem.objects = s.mem.objects
  frames : ∀ f, bitmapTest t.mem.paging.bitmap f = bitmapTest s.mem.paging.bitmap f
  directory : t.mem.paging.cr3 = s.mem.paging.cr3
  walk : ∀ va < wordSize, ¬out va →
    walk t.mem.paging.mem t.mem.paging.cr3 va = walk s.mem.paging.mem s.mem.paging.cr3 va

theorem NoTrace.of_leaves {out : ℕ → Prop} (htasks : SameTasks s.tasks t.tasks) (hobjects : t.mem.objects = s.mem.objects)
    (h : Leaves E ∅ s.mem.paging t.mem.paging) (hout : ∀ va, pdIndex va = kstackPdeIndex → ptIndex va ∈ E → out va) :
    NoTrace out s t := by
  refine ⟨htasks, hobjects, fun f => ?_, h.cr3, fun va hva hnot => h.walk va hva fun hin => hnot (hout va hin.1 hin.2)⟩
  rw [h.bitmap, decide_eq_false (Finset.notMem_empty f), Bool.or_false]

/-! ### Answers -/

theorem spawnEnv_fresh {pages : ℕ} {image : Bool} (ha : a ∉ k.live) : (⟨some a, pages, image⟩ : SpawnEnv).Fresh k := by
  intro c hc
  obtain rfl := Option.some.inj hc
  exact ha

/-- The current directory has the page tables for the kernel stacks and for the next page of the chunk pool. -/
structure TablesPresent (s : System) : Prop where
  kstack : Present (s.mem.paging.entry (s.mem.paging.cr3 / 4096) kstackPdeIndex)
  pool : Present (s.mem.paging.entry (s.mem.paging.cr3 / 4096) (pdIndex s.mem.pool.vptr))

theorem TablesPresent.of_dir (hs : SystemReachable L s) (hkstack : Present (s.mem.paging.entry (s.dir L) kstackPdeIndex))
    (hpool : Present (s.mem.paging.entry (s.dir L) (pdIndex s.mem.pool.vptr))) : TablesPresent s := by
  rw [← hs.backed.cr3_dir] at hkstack hpool
  exact ⟨hkstack, hpool⟩

/-- What a creator is answered in memory that is in order. -/
inductive Answered (request : Option (ℕ × SpawnKind)) (s : System) : SpawnEnv × MemState → Prop
  | none (hrequest : request = none) : Answered request s (⟨none, 0, false⟩, s.mem)
  | granted (pid : ℕ) (kind : SpawnKind) (a : ℕ) (n : MemState) (hrequest : request = some (pid, kind)) (hfresh : a ∉ s.tasks.live) :
      Answered request s (⟨some a, kstackPages, true⟩, n)
  | refused (pid : ℕ) (kind : SpawnKind) (a pages : ℕ) (n : MemState) (E : Set ℕ) (T : Finset ℕ)
      (hrequest : request = some (pid, kind)) (hfresh : a ∉ s.tasks.live) (hobjects : n.objects = s.mem.objects)
      (hkeeps : kind.Keeps (physFreeCount s.mem.paging.bitmap - poolDemand taskSize s.mem.pool) E T)
      (hleaves : Leaves E T s.mem.paging n.paging) : Answered request s (⟨some a, pages, false⟩, n)

/-- A request for the next pid. -/
structure Requested (k : KState) (pid : ℕ) (kind : SpawnKind) : Prop where
  pid : pid = k.taskCounter + 1
  room : k.taskCounter < maxProc - 1
  sized : kind.Sized

theorem Backed.answered {fuel : ℕ} (h : Backed L s) (hroster : Roster s.tasks ledger) (hplaced : Placed s.tasks)
    (htables : TablesPresent s) (hrequest : ∀ pid kind, request = some (pid, kind) → Requested s.tasks pid kind) :
    Ensures (serve L fuel request s.mem) (Answered request s) := by
  cases request with
  | none => exact ensures_ok (.none rfl)
  | some r =>
    obtain ⟨pid, kind⟩ := r
    obtain ⟨hnumber, hroom, hsized⟩ := hrequest pid kind rfl
    have hpid : pid ∈ unused s.tasks := by
      rw [hnumber]
      exact ⟨by omega, .inl (Nat.lt_succ_self _)⟩
    have hnew := unused_not_dir hroster hplaced hpid
    have hkstack := htables.kstack
    have hpool := htables.pool
    rw [h.cr3_dir] at hkstack hpool
    intro r hok
    have hspawned : Spawned L _ pid kind _ _ s.mem r := h.mem.spawn hpid hnew hsized r hok
    have hrefused := h.mem.refused hpid hnew hsized hkstack hpool r hok
    cases hspawned with
    | granted a n habove hfresh => exact .granted pid kind a n rfl (h.outside habove hfresh)
    | refused a pages n habove hfresh hpages hobjects =>
      obtain ⟨E, T, hkeeps, hleaves⟩ := hrefused rfl
      exact .refused pid kind a pages n E T rfl (h.outside habove hfresh) hobjects hkeeps hleaves

/-! ### The spawners -/

theorem kthreadRequest_some (h : kthreadRequest size k = some (pid, kind)) :
    size ≠ 0 ∧ kind ≠ .fork ∧ Requested k pid kind := by
  unfold kthreadRequest at h
  split at h
  · cases h
  · rename_i hguard
    obtain ⟨rfl, rfl⟩ := Prod.mk.inj (Option.some.inj h)
    exact ⟨fun hz => hguard (.inl hz), nofun, rfl, by omega, trivial⟩

theorem userRequest_some (h : userRequest function size parent k = some (pid, kind)) :
    (∃ p, parent = some p ∧ ValidImage size p) ∧ k.taskCounter + 1 < maxProc - 1 ∧ kind ≠ .fork ∧ Requested k pid kind := by
  unfold userRequest at h
  split at h
  · cases h
  cases parent with
  | none => cases h
  | some p =>
    obtain ⟨hvalid, hroom, rfl, rfl⟩ := spawnRequest_some h
    have hroom : k.taskCounter + 1 < maxProc - 1 := hroom
    exact ⟨⟨p, rfl, hvalid⟩, hroom, nofun, rfl, by omega, hvalid.pos, hvalid.page⟩

/-- A spawner that adds no task comes out as if nothing had been asked for. -/
theorem SpawnCase.sameTasks (h : SpawnCase env p k k') (hfresh : env.Fresh k) (hno : ¬AddsTask k k') : SameTasks k k' := by
  cases h with
  | failed h => exact sameTasks_beside h hfresh
  | born c u hroom hc hu ht =>
    refine absurd ?_ hno
    rw [ht]
    exact hu.addsTask (hfresh c hc)

/-- Wherever the frames run out, a spawn that fails leaves no trace. -/
theorem failed_spawn_leaves_no_trace (L : Layout) (s : System) (hs : SystemReachable L s) (htables : TablesPresent s) :
    (∀ fuel addr size t, execFn L fuel addr size s = .ok t → ¬AddsTask s.tasks t.tasks → NoTrace OnScratch s t) ∧
      ∀ fuel function size parent t, execUserFn L fuel function size parent s = .ok t → ¬AddsTask s.tasks t.tasks →
        NoTrace OnScratch s t := by
  have hbacked := hs.backed
  obtain ⟨hrun, ledger, hpids⟩ := hs.tasks
  have hplaced := placed_run hrun
  have hscratch : ∀ {E : Set ℕ}, E ⊆ scratchEntries → ∀ va, pdIndex va = kstackPdeIndex → ptIndex va ∈ E → OnScratch va := by
    intro E hE va hindex hin
    rw [OnScratch, hindex]
    exact hE hin
  refine ⟨fun fuel addr size t hok hno => ?_, fun fuel function size parent t hok hno => ?_⟩
  · obtain ⟨⟨env, n⟩, hserved, hok⟩ := bind_eq_ok.mp hok
    obtain rfl := Except.ok.inj hok
    have htasks : env.Fresh s.tasks → SameTasks s.tasks (Tasks.execFn env addr size s.tasks) := fun hfresh =>
      SpawnCase.sameTasks (execFn_cases hfresh) hfresh hno
    have hanswered := hbacked.answered hpids.roster hplaced htables
      (fun pid kind hr => (kthreadRequest_some hr).2.2) (env, n) hserved
    cases hanswered with
    | none => exact .of_leaves (htasks nofun) rfl (.refl ∅ _) nofun
    | granted pid kind a n hr hfresh =>
      obtain ⟨hsize, -, hrequested⟩ := kthreadRequest_some hr
      exact absurd (execFn_adds (spawnAt_available hfresh) hsize hrequested.room) hno
    | refused pid kind a pages n E T hr hfresh hobjects hkeeps hleaves =>
      obtain ⟨-, hkind, -⟩ := kthreadRequest_some hr
      rw [hkeeps.none hkind] at hleaves
      exact .of_leaves (htasks (spawnEnv_fresh hfresh)) hobjects hleaves (hscratch hkeeps.scratch)
  · obtain ⟨⟨env, n⟩, hserved, hok⟩ := bind_eq_ok.mp hok
    obtain rfl := Except.ok.inj hok
    have htasks : env.Fresh s.tasks → SameTasks s.tasks (Tasks.execUserFn env size parent s.tasks) := by
      intro hfresh
      rcases @execUserFn_cases _ _ size parent hfresh with h | ⟨p, -, h⟩
      · exact sameTasks_beside h hfresh
      · exact SpawnCase.sameTasks h hfresh hno
    have hanswered := hbacked.answered hpids.roster hplaced htables
      (fun pid kind hr => (userRequest_some hr).2.2.2) (env, n) hserved
    cases hanswered with
    | none => exact .of_leaves (htasks nofun) rfl (.refl ∅ _) nofun
    | granted pid kind a n hr hfresh =>
      obtain ⟨⟨p, rfl, hvalid⟩, hroom, -⟩ := userRequest_some hr
      exact absurd (execUserFn_adds (spawnAt_available hfresh) hvalid hroom) hno
    | refused pid kind a pages n E T hr hfresh hobjects hkeeps hleaves =>
      obtain ⟨-, -, hkind, -⟩ := userRequest_some hr
      rw [hkeeps.none hkind] at hleaves
      exact .of_leaves (htasks (spawnEnv_fresh hfresh)) hobjects hleaves (hscratch hkeeps.scratch)

/-- Where the frames do not suffice for the kernel stack, `exec_fn` comes back without a task. -/
theorem execFn_short {n : MemState} (hs : SystemReachable L s) (htables : TablesPresent s) (hsize : size ≠ 0)
    (hroom : s.tasks.taskCounter < maxProc - 1) (hok : TaskMemory.kmalloc taskSize s.mem = .ok (a, n))
    (hfew : physFreeCount s.mem.paging.bitmap < poolDemand taskSize s.mem.pool + kstackPages) (addr : ℕ) :
    ∃ fuel t, execFn L fuel addr size s = .ok t ∧ ¬AddsTask s.tasks t.tasks := by
  have hbacked := hs.backed
  obtain ⟨hrun, ledger, hpids⟩ := hs.tasks
  have hpid : s.tasks.taskCounter + 1 ∈ unused s.tasks := ⟨by omega, .inl (Nat.lt_succ_self _)⟩
  have hnew := unused_not_dir hpids.roster (placed_run hrun) hpid
  have hstack := htables.kstack
  have hpool := htables.pool
  rw [hbacked.cr3_dir] at hstack hpool
  obtain ⟨bound, hbound⟩ := hbacked.mem.spawn_kthread hpid hnew hstack hpool hok
  obtain ⟨r, hspawn, hanswer⟩ := hbound bound le_rfl
  have hrefused : r.1.userImage = false := by
    rw [hanswer]
    exact decide_eq_false (Nat.not_le.mpr hfew)
  have hserve : serve L bound (kthreadRequest size s.tasks) s.mem = .ok r := by
    unfold kthreadRequest
    rw [if_neg (by omega)]
    exact hspawn
  refine ⟨bound, ⟨Tasks.execFn r.1 addr size s.tasks, r.2⟩, ?_, ?_⟩
  · unfold execFn
    rw [hserve, ok_bind]
  have hsized : SpawnKind.kthread.Sized := trivial
  have hspawned := hbacked.mem.spawn hpid hnew hsized r hspawn
  cases hspawned with
  | granted a n habove hfresh => exact absurd hrefused Bool.noConfusion
  | refused a pages n habove hfresh hpages hobjects =>
    have ha := hbacked.outside habove hfresh
    have hfresh : (⟨some a, pages, false⟩ : SpawnEnv).Fresh s.tasks := spawnEnv_fresh ha
    rintro ⟨c, hc, hlive, -⟩
    have hin : c ∈ (Tasks.execFn ⟨some a, pages, false⟩ addr size s.tasks).live := hlive ▸ Finset.mem_insert_self c _
    rcases SpawnCase.live_subset (execFn_cases hfresh) hin with hold | hnew
    · exact hc hold
    · obtain rfl := Option.some.inj hnew
      exact execFn_refused ha rfl (hpages rfl) hin

/-- One frame is left for the kernel stack: its first page is mapped, and unmapped again. -/
theorem failed_spawn_leaves_no_trace_short : ∃ s fuel t, SystemReachable sampleLayout s ∧ TablesPresent s ∧
    physFreeCount s.mem.paging.bitmap = poolDemand taskSize s.mem.pool + 1 ∧
    execFn sampleLayout fuel 0x00100000 64 s = .ok t ∧ ¬AddsTask s.tasks t.tasks ∧ NoTrace OnScratch s t := by
  obtain ⟨m, hreachable, hvptr, hkstack, hpool, hfree⟩ := userTasks_reachable
  have hpgdir : userTasks.current.mm.pgdir = 1 := by decide +kernel
  have hdir : (⟨userTasks, m⟩ : System).dir sampleLayout = sampleLayout.dir 1 := by
    simp only [System.dir, hpgdir]
  have hdemand : poolDemand taskSize m.pool ≤ 1 := by
    unfold poolDemand
    split <;> omega
  have hspare : poolDemand taskSize m.pool + 3 ≤ physFreeCount m.paging.bitmap := by omega
  obtain ⟨s, hs, htasks, hsame, hpresent, hcount⟩ := hreachable.frames_left hspare
  dsimp only at htasks hsame
  rw [← hsame] at hvptr hcount
  have hindex : pdIndex m.pool.vptr < 1024 := by
    rw [← hsame, hvptr]
    decide
  rw [hdir] at hpresent
  have hdir' : s.dir sampleLayout = sampleLayout.dir 1 := by
    rw [System.dir, htasks, hpgdir]
  have htables : TablesPresent s := by
    refine .of_dir hs ?_ ?_
    · rw [hdir']
      exact hpresent _ (by decide) hkstack
    · rw [hdir', hsame]
      exact hpresent _ hindex hpool
  have hzone : add32 s.mem.pool.vptr Kmalloc.pageSize ≤ Kmalloc.kcpoolVirtMax := by
    rw [hvptr]
    decide
  obtain ⟨⟨a, n⟩, hstruct⟩ := hs.backed.mem.kmalloc_returns taskSize_served.1 taskSize_served.2
    (fun hdrained => spare_iff.mpr (by rw [hcount, poolDemand, if_pos hdrained])) hzone
  have hroom : s.tasks.taskCounter < maxProc - 1 := by
    rw [htasks]
    decide +kernel
  have hpages : kstackPages = 2 := rfl
  obtain ⟨fuel, t, hok, hno⟩ := execFn_short hs htables (by decide : 64 ≠ 0) hroom hstruct (by omega) 0x00100000
  exact ⟨s, fuel, t, hs, htables, hcount, hok, hno,
    (failed_spawn_leaves_no_trace sampleLayout s hs htables).1 _ _ _ _ hok hno⟩

/-! ### The fork -/

theorem forkRequest_none (h : forkRequest k = none) : k.current.kstack = 0 ∨ maxProc - 1 ≤ k.taskCounter := by
  unfold forkRequest at h
  split at h
  · assumption
  · cases h

theorem forkRequest_some (h : forkRequest k = some (pid, kind)) :
    k.current.kstack ≠ 0 ∧ kind = .fork ∧ Requested k pid kind := by
  unfold forkRequest at h
  split at h
  · cases h
  · rename_i hguard
    obtain ⟨rfl, rfl⟩ := Prod.mk.inj (Option.some.inj h)
    exact ⟨fun hz => hguard (.inl hz), rfl, rfl, by omega, trivial⟩

/-- A fork that is granted all does not return `-1`. -/
theorem taskFork_answers (ha : a ∉ k.live) (hkstack : k.current.kstack ≠ 0) (hroom : k.taskCounter < maxProc - 1) :
    (Tasks.taskFork ⟨some a, kstackPages, true⟩ k).1 ≠ none := by
  have havailable : (⟨some a, kstackPages, true⟩ : SpawnEnv).Available k := spawnAt_available ha
  have hpid := pidAlloc_room hroom
  unfold Tasks.taskFork
  simp only [if_neg hkstack, hpid, allocKstack_available havailable, Bool.not_true, Bool.false_eq_true, if_false]
  intro hnone
  cases hnone

/-- Nor does a fork that is refused leave a task behind. -/
theorem sameTasks_refused (h : SpawnCase env p k k') (hfresh : env.Fresh k) (hno : ∀ c, env.kmalloc = some c → c ∉ k'.live) :
    SameTasks k k' := by
  refine SpawnCase.sameTasks h hfresh ?_
  rintro ⟨c, hc, hlive, -⟩
  have hin : c ∈ k'.live := hlive ▸ Finset.mem_insert_self c _
  rcases SpawnCase.live_subset h hin with hold | hnew
  · exact hc hold
  · exact hno c hnew hin

/-- What a fork leaves that fails: nothing before its first call on the memory, and after that the frames that it found
behind the kernel stack. -/
theorem taskFork_fails (hs : SystemReachable L s) (htables : TablesPresent s) (hok : taskFork L fuel s = .ok (none, t)) :
    SameTasks s.tasks t.tasks ∧ t.mem.objects = s.mem.objects ∧
      ((s.tasks.current.kstack = 0 ∨ maxProc - 1 ≤ s.tasks.taskCounter) ∧ t.mem = s.mem ∨
        s.tasks.current.kstack ≠ 0 ∧ s.tasks.taskCounter < maxProc - 1 ∧ ∃ E T,
          SpawnKind.fork.Keeps (physFreeCount s.mem.paging.bitmap - poolDemand taskSize s.mem.pool) E T ∧
            Leaves E T s.mem.paging t.mem.paging) := by
  have hbacked := hs.backed
  obtain ⟨hrun, ledger, hpids⟩ := hs.tasks
  have hplaced := placed_run hrun
  obtain ⟨⟨env, n⟩, hserved, hok⟩ := bind_eq_ok.mp hok
  obtain ⟨hnone, rfl⟩ := Prod.mk.inj (Except.ok.inj hok)
  have hcases : env.Fresh s.tasks → SpawnCase env s.tasks.currentTask s.tasks (Tasks.taskFork env s.tasks).2 := taskFork_cases
  have hanswered := hbacked.answered hpids.roster hplaced htables
    (fun pid kind hr => (forkRequest_some hr).2.2) (env, n) hserved
  cases hanswered with
  | none hr =>
    have htasks := sameTasks_refused (hcases nofun) nofun nofun
    exact ⟨htasks, rfl, .inl ⟨forkRequest_none hr, rfl⟩⟩
  | granted pid kind a n hr hfresh =>
    obtain ⟨hkstack, -, hrequested⟩ := forkRequest_some hr
    exact absurd hnone (taskFork_answers hfresh hkstack hrequested.room)
  | refused pid kind a pages n E T hr hfresh hobjects hkeeps hleaves =>
    obtain ⟨hkstack, rfl, hrequested⟩ := forkRequest_some hr
    refine ⟨sameTasks_refused (hcases (spawnEnv_fresh hfresh)) (spawnEnv_fresh hfresh) fun c hc => ?_, hobjects,
      .inr ⟨hkstack, hrequested.room, E, T, hkeeps, hleaves⟩⟩
    obtain rfl := Option.some.inj hc
    exact taskFork_refused hfresh rfl rfl

/-- A fork that is refused returns `-1`. -/
theorem taskFork_refuses (h : env.userImage = false) : (Tasks.taskFork env k).1 = none := by
  unfold Tasks.taskFork
  split
  · rfl
  split
  · rfl
  split
  · rfl
  split
  · rfl
  · simp only [h, Bool.not_false, if_true]

/-- A fork with a struct to be had comes to an end, and fails just when the frames do not suffice. -/
theorem taskFork_returns {n : MemState} (hs : SystemReachable L s) (htables : TablesPresent s)
    (hkstack : s.tasks.current.kstack ≠ 0) (hroom : s.tasks.taskCounter < maxProc - 1)
    (hok : TaskMemory.kmalloc taskSize s.mem = .ok (a, n)) : ∃ bound, ∀ fuel, bound ≤ fuel →
      Returns (taskFork L fuel s) fun r => r.1 = none ↔ physFreeCount s.mem.paging.bitmap <
        poolDemand taskSize s.mem.pool + kstackPages + forkDemand s.mem.paging (s.dir L) := by
  have hbacked := hs.backed
  obtain ⟨hrun, ledger, hpids⟩ := hs.tasks
  have hpid : s.tasks.taskCounter + 1 ∈ unused s.tasks := ⟨by omega, .inl (Nat.lt_succ_self _)⟩
  have hnew := unused_not_dir hpids.roster (placed_run hrun) hpid
  have hrequest : forkRequest s.tasks = some (s.tasks.taskCounter + 1, .fork) := by
    unfold forkRequest
    rw [if_neg fun hc => hc.elim hkstack fun hc => by omega]
  have hstack := htables.kstack
  have hpool := htables.pool
  rw [hbacked.cr3_dir] at hstack hpool
  obtain ⟨-, hhanded⟩ := kmalloc_handed hbacked.mem.pooled taskSize_served.1 taskSize_served.2 hok
  have habove := (hhanded.pooled.object_page (hhanded.objects ▸ Finset.mem_insert_self a _)).2
  have hfresh : a ∉ s.tasks.live := hbacked.outside habove hhanded.fresh
  obtain ⟨bound, hbound⟩ := hbacked.mem.spawn_fork hpid hnew hstack hpool hok
  refine ⟨bound, fun fuel hfuel => ?_⟩
  obtain ⟨⟨env, m⟩, hspawn, hstruct, hpages, hanswer⟩ := hbound fuel hfuel
  have hserve : serve L fuel (forkRequest s.tasks) s.mem = .ok (env, m) := by
    rw [hrequest]
    exact hspawn
  unfold taskFork
  rw [hserve, ok_bind]
  refine returns_ok ?_
  have hanswer : env.userImage = decide (poolDemand taskSize s.mem.pool + kstackPages + forkDemand s.mem.paging (s.dir L) ≤
      physFreeCount s.mem.paging.bitmap) := hanswer
  rw [← Nat.not_le, ← decide_eq_true_iff (p := poolDemand taskSize s.mem.pool + kstackPages +
    forkDemand s.mem.paging (s.dir L) ≤ physFreeCount s.mem.paging.bitmap), ← hanswer]
  obtain ⟨struct, pages, image⟩ := env
  obtain rfl : struct = some a := hstruct
  cases image with
  | false => exact iff_of_true (taskFork_refuses rfl) Bool.false_ne_true
  | true =>
    obtain rfl : pages = kstackPages := hpages rfl
    exact iff_of_false (taskFork_answers hfresh hkstack hroom) fun hc => hc rfl

/-- Pages that are added leave the page tables where they are. -/
theorem TablesPresent.pagesAdded (h : PagesAdded L s t) (hpool : pdIndex s.mem.pool.vptr < 1024)
    (hs : Present (s.mem.paging.entry (s.dir L) kstackPdeIndex))
    (hs' : Present (s.mem.paging.entry (s.dir L) (pdIndex s.mem.pool.vptr))) : TablesPresent t := by
  refine .of_dir h.reachable ?_ ?_
  · rw [h.dir]
    exact h.tables _ (by decide) hs
  · rw [h.dir, h.pool]
    exact h.tables _ hpool hs'

/-- Three pages in one table of the user half, and hardly a frame left. -/
theorem SystemReachable.short (hs : SystemReachable L s) (hfree : 10 ≤ physFreeCount s.mem.paging.bitmap) :
    ∃ t, PagesAdded L s t ∧ 4 ≤ forkDemand t.mem.paging (s.dir L) ∧ 4 ≤ physFreeCount t.mem.paging.bitmap ∧
      physFreeCount t.mem.paging.bitmap ≤ 5 := by
  have hpage : ∀ i < 3, Elsewhere (userPage i) ∧ pdIndex (userPage i) = 64 ∧ ptIndex (userPage i) = i := by
    intro i hi
    refine ⟨(userPage_elsewhere (Nat.le_of_lt (hi.trans (by decide)))).1, ?_, ?_⟩
    · unfold pdIndex userPage
      omega
    · unfold ptIndex userPage
      omega
  obtain ⟨s₁, h₁, hmaps₁, hfree₁⟩ := hs.mapsPage (n := 8) (hpage 0 (by decide)).1 hfree
  obtain ⟨s₂, h₂, hmaps₂, hfree₂⟩ := h₁.reachable.mapsPage (n := 6) (hpage 1 (by decide)).1 hfree₁
  obtain ⟨s₃, h₃, hmaps₃, hfree₃⟩ := h₂.reachable.mapsPage (n := 4) (hpage 2 (by decide)).1 hfree₂
  obtain ⟨t, h, hleft, hfew⟩ := h₃.reachable.frames_run_out hfree₃
  have hdir₂ := (h₁.trans h₂).dir
  rw [h₁.dir] at hmaps₂
  rw [hdir₂] at hmaps₃
  have hlater := (h₂.trans (h₃.trans h)).maps
  have hlater' := (h₃.trans h).maps
  have hlast := h.maps
  rw [h₁.dir] at hlater
  rw [hdir₂] at hlater'
  rw [((h₁.trans h₂).trans h₃).dir] at hlast
  have hmaps : ∀ q < 3, Maps t.mem.paging (s.dir L) 64 q := by
    intro q hq
    obtain ⟨-, hpd, hpt⟩ := hpage q hq
    have hq : q = 0 ∨ q = 1 ∨ q = 2 := by omega
    rcases hq with rfl | rfl | rfl
    · rw [hpd, hpt] at hmaps₁
      exact hlater 64 0 (by decide) (by decide) (by decide) hmaps₁
    · rw [hpd, hpt] at hmaps₂
      exact hlater' 64 1 (by decide) (by decide) (by decide) hmaps₂
    · rw [hpd, hpt] at hmaps₃
      exact hlast 64 2 (by decide) (by decide) (by decide) hmaps₃
  refine ⟨t, h₁.trans (h₂.trans (h₃.trans h)), ?_, hleft, hfew⟩
  refine le_forkDemand (Q := Finset.range 3) (by decide : 0 < 64) (by decide) (hmaps 0 (by decide)).1 fun q hq => ?_
  have hq := Finset.mem_range.mp hq
  exact ⟨by omega, hmaps q hq⟩

/-- The first user task forks while four frames are left, or five. -/
theorem taskFork_short : ∃ s fuel t, SystemReachable sampleLayout s ∧ s.tasks.current.isUserspace = true ∧ TablesPresent s ∧
    taskFork sampleLayout fuel s = .ok (none, t) ∧ s.tasks.current.kstack ≠ 0 ∧ s.tasks.taskCounter < maxProc - 1 ∧
    poolDemand taskSize s.mem.pool + kstackPages < physFreeCount s.mem.paging.bitmap := by
  obtain ⟨m, hreachable, hvptr, hkstack, hpool, hfree⟩ := userTasks_reachable
  have hpgdir : userTasks.current.mm.pgdir = 1 := by decide +kernel
  have hdir : (⟨userTasks, m⟩ : System).dir sampleLayout = sampleLayout.dir 1 := by
    simp only [System.dir, hpgdir]
  obtain ⟨s, hadded, hdemand, hleft, hfew⟩ := hreachable.short (le_trans (by decide) hfree)
  have htasks := hadded.tasks
  dsimp only at htasks
  have hvptr' : s.mem.pool.vptr = Kmalloc.kcpoolVirtBase + Kmalloc.pageSize := by
    rw [hadded.pool]
    exact hvptr
  rw [← hdir] at hkstack hpool
  have hindex : pdIndex m.pool.vptr < 1024 := by
    rw [hvptr]
    decide
  have htables : TablesPresent s := .pagesAdded hadded hindex hkstack hpool
  rw [← hadded.dir] at hdemand
  have hzone : add32 s.mem.pool.vptr Kmalloc.pageSize ≤ Kmalloc.kcpoolVirtMax := by
    rw [hvptr']
    decide
  obtain ⟨⟨a, n⟩, hstruct⟩ := hadded.reachable.backed.mem.kmalloc_returns taskSize_served.1 taskSize_served.2
    (fun _ => spare_iff.mpr (by omega)) hzone
  have huser : s.tasks.current.isUserspace = true ∧ s.tasks.current.kstack ≠ 0 ∧ s.tasks.taskCounter < maxProc - 1 := by
    rw [htasks]
    decide +kernel
  obtain ⟨huser, hstack, hroom⟩ := huser
  obtain ⟨bound, hbound⟩ := taskFork_returns hadded.reachable htables hstack hroom hstruct
  obtain ⟨⟨answer, t⟩, hfork, hanswer⟩ := hbound bound le_rfl
  have hdemand' : poolDemand taskSize s.mem.pool ≤ 1 := by
    unfold poolDemand
    split <;> omega
  have hpages : kstackPages = 2 := rfl
  obtain rfl : answer = none := hanswer.mpr (by omega)
  exact ⟨s, bound, t, hadded.reachable, huser, htables, hfork, hstack, hroom, by omega⟩

/-- A fork that fails leaves no trace exactly if it takes no frame behind the kernel stack. -/
theorem fork_leaves_no_trace_iff (L : Layout) (s : System) (hs : SystemReachable L s) (htables : TablesPresent s) (fuel : ℕ)
    (t : System) (hok : taskFork L fuel s = .ok (none, t)) : NoTrace (fun _ => False) s t ↔
      (s.tasks.current.kstack = 0 ∨ maxProc - 1 ≤ s.tasks.taskCounter ∨
        physFreeCount s.mem.paging.bitmap ≤ poolDemand taskSize s.mem.pool + kstackPages) := by
  obtain ⟨htasks, hobjects, hmem⟩ := taskFork_fails hs htables hok
  rcases hmem with ⟨hrefused, hmem⟩ | ⟨hkstack, hroom, E, T, hkeeps, hleaves⟩
  · refine iff_of_true (.of_leaves htasks hobjects (E := ∅) ?_ fun _ _ hin => absurd hin (Set.notMem_empty _)) ?_
    · rw [hmem]
      exact .refl ∅ _
    · exact hrefused.imp_right .inl
  obtain ⟨hcard, hempty⟩ := hkeeps.all rfl
  constructor
  · intro h
    -- a frame that was taken is free before and in use behind
    have hT : T = ∅ := by
      refine Finset.eq_empty_of_forall_notMem fun f hf => ?_
      have hbit := h.frames f
      rw [hleaves.bitmap, (hleaves.fresh f hf).clear, decide_eq_true hf] at hbit
      exact Bool.false_ne_true hbit.symm
    rw [hT, Finset.card_empty] at hcard
    omega
  · intro h
    have hT : T = ∅ := by
      refine Finset.card_eq_zero.mp ?_
      rcases h with h | h | h
      · exact absurd h hkstack
      · omega
      · omega
    rw [hT, hempty hT] at hleaves
    exact .of_leaves htasks hobjects hleaves fun _ _ hin => absurd hin (Set.notMem_empty _)

/-- A fork of the first user task that finds some frames behind its kernel stack, but not enough. -/
theorem fork_leaves_no_trace_short : ∃ s fuel t, SystemReachable sampleLayout s ∧ TablesPresent s ∧
    taskFork sampleLayout fuel s = .ok (none, t) ∧ ¬NoTrace (fun _ => False) s t := by
  obtain ⟨s, fuel, t, hs, -, htables, hok, hkstack, hroom, hfree⟩ := taskFork_short
  refine ⟨s, fuel, t, hs, htables, hok, fun h => ?_⟩
  rcases (fork_leaves_no_trace_iff sampleLayout s hs htables fuel t hok).mp h with h | h | h
  · exact hkstack h
  · omega
  · omega

/-- Its frames are not given back. -/
theorem fork_leaves_no_trace_fails : ¬∀ (L : Layout) (s : System), SystemReachable L s →
    s.tasks.current.isUserspace = true → TablesPresent s → ∀ fuel t, taskFork L fuel s = .ok (none, t) →
      ∀ f, bitmapTest t.mem.paging.bitmap f = bitmapTest s.mem.paging.bitmap f := by
  intro h
  obtain ⟨s, fuel, t, hs, huser, htables, hok, hkstack, hroom, hfree⟩ := taskFork_short
  have hsame := h sampleLayout s hs huser htables fuel t hok
  obtain ⟨-, -, ⟨hrefused, -⟩ | ⟨-, -, E, T, hkeeps, hleaves⟩⟩ := taskFork_fails hs htables hok
  · omega
  obtain ⟨hcard, -⟩ := hkeeps.all rfl
  obtain ⟨f, hf⟩ : T.Nonempty := Finset.card_pos.mp (by omega)
  have hbit := hsame f
  rw [hleaves.bitmap, (hleaves.fresh f hf).clear, decide_eq_true hf] at hbit
  exact Bool.false_ne_true hbit.symm

end HekaOS.TaskMemory
