import HekaOS.MemoryCalls
import HekaOS.SpawnAnswers
import HekaOS.TaskFields

/-!
# Runs of the kernel with its memory

The operations of the tasks and the calls they make on the memory, one after the other, with what other parts of
the kernel ask of the same memory in between: objects of the chunk pool, pages outside the zones of the pool and of
the kernel stacks, the books of `vmalloc`, and stores through mapped pages.
-/

namespace HekaOS.TaskMemory
open MachineWord KernelMemory KernelTriples ByteMemory PageWalk WordBitmap PhysPageFrame AddressMap Vmalloc Tasks
open TransitionSystem Paging
open Kmalloc (pageOf kmallocInit PoolInvariant PoolStep)

variable {L : Layout} {s t : System} {k k' : KState} {m : MemState} {op : KOp} {kind : SpawnKind} {env : SpawnEnv}
  {a c fuel function p pid size z : ℕ}

/-! ### The steps -/

/-- A switch to another task loads its directory. -/
def MemState.reload (L : Layout) (k k' : KState) (m : MemState) : MemState :=
  if k'.currentTask = k.currentTask then m
  else m.withPaging { m.paging with cr3 := L.pageDirectory k'.current.mm.pgdir }

/-- What an operation does to the memory, if the calls it makes come to an end. -/
inductive MemoryStep (L : Layout) (op : KOp) (s : System) : MemState → Prop
  | quiet (hasks : asks 0 s.tasks op = none) (hreaps : ∀ z, ¬op.Reaps s.tasks z) : MemoryStep L op s s.mem
  | spawn (fuel function : ℕ) {env : SpawnEnv} {request : Option (ℕ × SpawnKind)} {m : MemState}
      (hasks : asks function s.tasks op = some (env, request)) (hok : serve L fuel request s.mem = .ok (env, m)) :
      MemoryStep L op s m
  | reap (fuel : ℕ) {z : ℕ} {m : MemState} (hz : op.Reaps s.tasks z)
      (hok : releaseMemory L fuel z (s.tasks.task z) s.mem = .ok m) : MemoryStep L op s m

/-- The operations of the tasks, and the calls of others on the memory. -/
inductive SystemStep (L : Layout) (s : System) : System → Prop
  | operation {op : KOp} {k : KState} {m : MemState} (hcpu : op.OnCpu s.tasks) (hop : KStep op s.tasks k)
      (hmem : MemoryStep L op s m) : SystemStep L s ⟨k, m.reload L s.tasks k⟩
  | kmalloc {size a : ℕ} {m : MemState} (h₁ : 1 ≤ size) (h₂ : size ≤ 256)
      (hok : TaskMemory.kmalloc size s.mem = .ok (a, m)) : SystemStep L s ⟨s.tasks, m⟩
  | kfree {fuel a : ℕ} {m : MemState} (ha : a ∈ s.mem.objects) (hfree : a ∉ s.tasks.live)
      (hok : TaskMemory.kfree fuel a s.mem = .ok m) : SystemStep L s ⟨s.tasks, m⟩
  | write {c a v : ℕ} (hc : c ∈ s.mem.objects) (ha : c ≤ a) (ha' : a < c + Kmalloc.ksize s.mem.pool c) :
      SystemStep L s ⟨s.tasks, { s.mem with vm := { s.mem.vm with pool := s.mem.pool.store a v } }⟩
  | books (bitmap : Bitmap) (regionList : ℕ) :
      SystemStep L s ⟨s.tasks, { s.mem with vm := { s.mem.vm with bitmap := bitmap, regionList := regionList } }⟩
  | allocPage {va flags : ℕ} {r : ℕ × PagingState} (hva : Elsewhere va)
      (hok : Paging.allocPage va flags s.mem.paging = .ok r) : SystemStep L s ⟨s.tasks, s.mem.withPaging r.2⟩
  | freePage {va : ℕ} {u : PagingState} (hva : Elsewhere va) (hok : Paging.freePage va s.mem.paging = .ok u) :
      SystemStep L s ⟨s.tasks, s.mem.withPaging u⟩
  | store {va v : ℕ} {u : PagingState} (hva : Plain va) (hok : s.mem.paging.writeByte va v = .ok u) :
      SystemStep L s ⟨s.tasks, s.mem.withPaging u⟩

/-- Behind `phys_mem_init`, `paging_init`, `kmalloc_init` and `task_init`. -/
structure SystemBooted (L : Layout) (s : System) : Prop where
  tasks : Boot s.tasks
  paging : Booted L s.mem.paging
  pool : ∃ mem, s.mem.pool = kmallocInit mem
  objects : s.mem.objects = ∅

def SystemReachable (L : Layout) (s : System) : Prop := Reachable (SystemBooted L) (SystemStep L) s

/-- The tasks run as they do without their memory. -/
theorem SystemReachable.tasks (h : SystemReachable L s) :
    KRun (fun op k => op.OnCpu k) s.tasks ∧ ∃ ledger, PidRun s.tasks ledger := by
  refine Reachable.invariant (I := fun s => KRun (fun op k => op.OnCpu k) s.tasks ∧ ∃ ledger, PidRun s.tasks ledger)
    (fun s hb => ⟨.start hb.tasks, _, .boot hb.tasks⟩) ?_ h
  rintro s t ⟨hrun, ledger, hpids⟩ hstep
  cases hstep with
  | operation hcpu hop hmem => exact ⟨.next hrun ⟨_, hcpu, hop⟩, _, .step hpids hop⟩
  | _ => exact ⟨hrun, ledger, hpids⟩

/-! ### What belongs to a task -/

/-- Pid, kernel stack and directory of a task. -/
def place (x : Task) : ℕ × ℕ × ℕ := (x.pid, x.kstack, x.mm.pgdir)

theorem place_lasting : Lasting place := ⟨fun _ _ _ _ _ => rfl, fun _ _ _ _ => rfl, fun _ _ => rfl⟩

theorem place_eq {x : Task} {pid kstack pgdir : ℕ} (h : place x = (pid, kstack, pgdir)) :
    x.pid = pid ∧ x.kstack = kstack ∧ x.mm.pgdir = pgdir := by
  simpa only [place, Prod.mk.injEq] using h

/-- The static tasks use `page_directories[0]`; the others have a directory and a kernel stack of their own. -/
structure Placed (k : KState) : Prop where
  init : place (k.task initTask) = (0, 0, 0)
  kthreadd : place (k.task kthreaddTask) = (2, 0, 0)
  other : ∀ a ∈ k.live, a ≠ initTask → a ≠ kthreaddTask →
    place (k.task a) = ((k.task a).pid, kstackVa (k.task a).pid, (k.task a).pid)

theorem Placed.boot (h : Boot k) : Placed k := by
  obtain ⟨junk, user, rfl⟩ := h
  refine ⟨rfl, rfl, fun a ha hinit hkthreadd => ?_⟩
  simp only [taskInit, Finset.mem_insert, Finset.mem_singleton] at ha
  rcases ha with rfl | rfl
  · exact absurd rfl hinit
  · exact absurd rfl hkthreadd

theorem Placed.enters {q : ℕ} (h : Placed k) (hinit : initTask ∈ k'.live ∧ initTask ∈ k.live)
    (hkthreadd : kthreaddTask ∈ k'.live ∧ kthreaddTask ∈ k.live)
    (ht : Enters place (Task.Furnished q) k k') : Placed k' := by
  have hkept : ∀ a ∈ k'.live, a ∈ k.live → place (k'.task a) = place (k.task a) := fun a ha hold =>
    (ht a ha).elim (fun h => h.2) fun h => absurd hold h.1
  refine ⟨(hkept _ hinit.1 hinit.2).trans h.init, (hkept _ hkthreadd.1 hkthreadd.2).trans h.kthreadd, fun a ha h₁ h₂ => ?_⟩
  rcases ht a ha with ⟨hold, hsame⟩ | ⟨-, hnew⟩
  · have hplace := h.other a hold h₁ h₂
    have hpid : (k'.task a).pid = (k.task a).pid := congrArg Prod.fst hsame
    rw [hsame, hpid]
    exact hplace
  · unfold place
    rw [hnew.kstack, hnew.pgdir]

/-- An operation leaves tasks that stay where they are. -/
theorem place_step {order : List ℕ} {kids : ℕ → List ℕ} (hk : Tended k kids order) (hop : KStep op k k')
    (ha : a ∈ k'.live) (ha' : a ∈ k.live) : place (k'.task a) = place (k.task a) := by
  by_cases htick : ∃ fuel, op = .tick fuel
  · obtain ⟨fuel, rfl⟩ := htick
    exact place_lasting.sameTick (fun _ _ => rfl) (toOption_eq_some.mp hop.run) a
  · have hkept : ∀ {q}, Enters place (Task.Furnished q) k k' → place (k'.task a) = place (k.task a) := fun ht =>
      (ht a ha).elim (fun h => h.2) fun h => absurd ha' h.1
    rcases place_lasting.enters_step hk.current_mem hop fun fuel he => htick ⟨fuel, he⟩ with ht | ht
    · exact hkept ht
    · exact hkept ht

theorem place_pgdir {order : List ℕ} {kids : ℕ → List ℕ} (hk : Tended k kids order) (hop : KStep op k k')
    (ha : a ∈ k'.live) (ha' : a ∈ k.live) : (k'.task a).mm.pgdir = (k.task a).mm.pgdir :=
  (place_eq (place_step hk hop ha ha')).2.2

theorem Placed.step {order : List ℕ} {kids : ℕ → List ℕ} (h : Placed k) (hk : Tended k kids order)
    (hk' : ∃ kids order, Tended k' kids order) (hop : KStep op k k') : Placed k' := by
  obtain ⟨kids', order', hk'⟩ := hk'
  have hstatic : (initTask ∈ k'.live ∧ initTask ∈ k.live) ∧ kthreaddTask ∈ k'.live ∧ kthreaddTask ∈ k.live :=
    ⟨⟨hk'.init, hk.init⟩, hk'.kthreadd, hk.kthreadd⟩
  by_cases htick : ∃ fuel, op = .tick fuel
  · obtain ⟨fuel, rfl⟩ := htick
    have hlive : k'.live = k.live := by
      cases rollStep hk.settled hop with
      | same hlive => exact hlive
      | joined p c hp => exact hp.elim
      | left z hz => exact hz.elim
    have hsame : SameField place k k' := place_lasting.sameTick (fun _ _ => rfl) (toOption_eq_some.mp hop.run)
    exact h.enters (q := 0) hstatic.1 hstatic.2 (hsame.enters hlive)
  · rcases place_lasting.enters_step hk.current_mem hop fun fuel he => htick ⟨fuel, he⟩ with ht | ht
    · exact h.enters hstatic.1 hstatic.2 ht
    · exact h.enters hstatic.1 hstatic.2 ht

theorem placed_run (h : KRun (fun op k => op.OnCpu k) k) : Placed k := by
  have hboth : Placed k ∧ ∃ kids order, Tended k kids order := by
    refine Reachable.invariant (I := fun k => Placed k ∧ ∃ kids order, Tended k kids order)
      (fun k hb => ⟨.boot hb, _, _, Tended.boot hb⟩) ?_ h
    rintro k k' ⟨hplaced, kids, order, hk⟩ ⟨op, hcond, hop⟩
    have hk' := hk.step hcond hop
    exact ⟨hplaced.step hk hk' hop, hk'⟩
  exact hboth.1

/-! ### The invariant -/

/-- The directories of the tasks in use. -/
def dirs (k : KState) : Set ℕ := {d | ∃ a ∈ k.live, d = (k.task a).mm.pgdir}

/-- The pids that no task was given yet. -/
def unused (k : KState) : Set ℕ :=
  {pid | pid < maxProc ∧ (k.taskCounter < pid ∨ pid = initPid ∧ k.initProc = none)}

/-- The memory is in order for the tasks there are, and their structs are objects of the pool. -/
structure Backed (L : Layout) (s : System) : Prop where
  mem : InOrder L s.tasks.current.mm.pgdir (dirs s.tasks) (unused s.tasks) s.mem
  structs : ∀ a ∈ s.tasks.live, a = initTask ∨ a = kthreaddTask ∨ a ∈ s.mem.objects

theorem booted_absent (h : Booted L m.paging) (hpid : pid < maxProc) {i : ℕ} (hi : 768 ≤ i) (hi' : i < 1023) :
    ¬Present (m.paging.entry (L.dir pid) i) := by
  obtain ⟨mem, old, hmem, hpaging⟩ := h
  rw [hpaging, pagingInit_entry (by omega), bootEntry]
  by_cases hzero : L.dir pid = L.dir 0
  · rw [if_pos hzero, if_neg (by omega), if_neg (by omega)]
    decide
  · have hclear : load32 mem (L.dir pid * 4096 + 4 * i) = 0 := hmem pid hpid i (by omega)
    rw [if_neg hzero, if_neg (dir_ne_fpt hpid), hclear]
    decide

theorem Backed.boot (h : SystemBooted L s) : Backed L s := by
  have habsent : ∀ p q, KernelIndex p q → ¬Somewhere L s.mem.paging p q := by
    rintro p q hk ⟨pid, hpid, hpresent, -⟩
    exact booted_absent h.paging hpid hk.low hk.high hpresent
  obtain ⟨mem, old, hmem, hpaging⟩ := h.paging
  obtain ⟨pmem, hpool⟩ := h.pool
  obtain ⟨junk, user, htasks⟩ := h.tasks
  have hlive : s.tasks.live = {initTask, kthreaddTask} := by rw [htasks]; rfl
  have hdirs : ∀ d ∈ dirs s.tasks, d = 0 := by
    rintro d ⟨a, ha, rfl⟩
    rw [hlive] at ha
    simp only [Finset.mem_insert, Finset.mem_singleton] at ha
    rcases ha with rfl | rfl
    · rw [htasks]
      rfl
    · rw [htasks]
      rfl
  have hzero : 0 ∈ dirs s.tasks := by
    refine ⟨initTask, hlive ▸ Finset.mem_insert_self _ _, ?_⟩
    rw [htasks]
    rfl
  have hcur : s.tasks.current.mm.pgdir = 0 := by
    rw [htasks]
    rfl
  have hcounter : s.tasks.taskCounter = 2 := by
    rw [htasks]
    rfl
  have hunused : ∀ pid ∈ unused s.tasks, pid < maxProc ∧ pid ≠ 0 := by
    rintro pid ⟨hlt, hfree⟩
    refine ⟨hlt, ?_⟩
    rcases hfree with hfree | ⟨rfl, -⟩
    · omega
    · decide
  have hinit : PoolInvariant ⟨s.mem.pool, s.mem.objects, fun _ => 0⟩ := Kmalloc.poolInvariant_init h.objects hpool
  have hsound : Sound L s.tasks.current.mm.pgdir s.mem.paging fun _ => .free := by
    rw [hcur, hpaging]
    exact sound_pagingInit hmem old
  refine ⟨⟨⟨_, hinit⟩, ⟨_, hsound⟩, ?_, hzero, ?_, ?_, ?_, ?_, hunused, ?_⟩, ?_⟩
  · rw [hcur]
    exact hzero
  · intro pid hpid
    rw [hdirs pid hpid]
    decide
  · intro pid hpid
    rw [hdirs pid hpid, hpaging, pagingInit_entry (by decide), bootEntry, if_pos rfl, if_pos rfl]
    exact (points_dir (by decide)).present
  · exact fun pid hpid hpos => absurd (hdirs pid hpid) hpos
  · exact fun va hva _ => habsent _ _ (poolPage_index hva).1
  · exact fun pid hpid p hp => habsent _ _ (slot_index (hunused pid hpid).1 hp)
  · intro a ha
    rw [hlive] at ha
    simp only [Finset.mem_insert, Finset.mem_singleton] at ha
    exact ha.imp_right .inl

section Step

variable {order : List ℕ} {kids : ℕ → List ℕ} {ledger : Ledger} {D U : Set ℕ}

/-- The directory of a task in use, by its pid. -/
theorem pgdir_eq (hplaced : Placed k) (ha : a ∈ k.live) :
    (k.task a).mm.pgdir = 0 ∧ (a = initTask ∨ a = kthreaddTask) ∨
      (k.task a).mm.pgdir = (k.task a).pid ∧ (k.task a).kstack = kstackVa (k.task a).pid ∧ a ≠ initTask ∧ a ≠ kthreaddTask := by
  by_cases hinit : a = initTask
  · subst hinit
    exact .inl ⟨(place_eq hplaced.init).2.2, .inl rfl⟩
  by_cases hkthreadd : a = kthreaddTask
  · subst hkthreadd
    exact .inl ⟨(place_eq hplaced.kthreadd).2.2, .inr rfl⟩
  obtain ⟨-, hkstack, hpgdir⟩ := place_eq (hplaced.other a ha hinit hkthreadd)
  exact .inr ⟨hpgdir, hkstack, hinit, hkthreadd⟩

/-- A pid that no task was given yet is no directory of a task. -/
theorem unused_not_dir (hroster : Roster k ledger) (hplaced : Placed k) (hpid : pid ∈ unused k) : pid ∉ dirs k := by
  rintro ⟨a, ha, rfl⟩
  obtain ⟨-, hfree⟩ := hpid
  have hcounter := hroster.counter
  rcases pgdir_eq hplaced ha with ⟨hzero, -⟩ | ⟨hown, -⟩
  · rw [hzero] at hfree
    rcases hfree with hfree | ⟨hfree, -⟩
    · omega
    · exact absurd hfree (by decide)
  · rw [hown] at hfree
    have hmem := hroster.mem_live ha
    rcases hfree with hfree | ⟨hfree, hnone⟩
    · rcases Multiset.mem_add.mp hmem with hb | hp
      · have := hroster.boot_lt _ hb
        omega
      · have := hroster.mem_spawned.mp hp
        omega
    · rcases Multiset.mem_add.mp hmem with hb | hp
      · rw [hroster.boot.resolve_right fun hi => hi.2 hnone, hfree] at hb
        exact absurd hb (by decide)
      · have := (hroster.mem_spawned.mp hp).1
        rw [hfree] at this
        exact absurd this (by decide)

/-- The directory of a task that is reaped is its own, and not the current one. -/
theorem dead_pgdir (hroster : Roster k ledger) (hplaced : Placed k) (hk : Tended k kids order) (ha : a ∈ k.live)
    (hinit : a ≠ initTask) (hkthreadd : a ≠ kthreaddTask) (hcur : a ≠ k.currentTask) :
    (k.task a).pid ∈ dirs k ∧ (k.task a).pid ≠ 0 ∧ (k.task a).pid ≠ k.current.mm.pgdir ∧
      (k.task a).kstack = kstackVa (k.task a).pid := by
  obtain ⟨hdir, hkstack, -, -⟩ := (pgdir_eq hplaced ha).resolve_left fun hc => hc.2.elim hinit hkthreadd
  have hpos : (k.task a).pid ≠ 0 := by
    intro he
    have hpid : (k.task initTask).pid = 0 := congrArg Prod.fst hplaced.init
    exact hinit (hroster.pid_inj ha hk.init (he.trans hpid.symm))
  refine ⟨⟨a, ha, hdir.symm⟩, hpos, fun he => ?_, hkstack⟩
  rcases pgdir_eq hplaced hk.current_mem with ⟨hzero, -⟩ | ⟨hown, -⟩
  · exact hpos (he.trans hzero)
  · exact hcur (hroster.pid_inj ha hk.current_mem (he.trans hown))

/-- The memory behind an operation serves the tasks behind it. -/
theorem settle {kids' : ℕ → List ℕ} {order' : List ℕ} (hk : Tended k kids order) (hk' : Tended k' kids' order') (hplaced : Placed k') (hop : KStep op k k')
    (h : InOrder L k.current.mm.pgdir D U m) (hdirs : dirs k' ⊆ D) (hunused : unused k' ⊆ U)
    (hstay : k.currentTask ∈ k'.live) :
    InOrder L k'.current.mm.pgdir (dirs k') (unused k') (m.reload L k k') := by
  have hcur : k'.current.mm.pgdir ∈ dirs k' := ⟨_, hk'.current_mem, rfl⟩
  have hzero : 0 ∈ dirs k' := ⟨initTask, hk'.init, (place_eq hplaced.init).2.2.symm⟩
  unfold MemState.reload
  split
  · rename_i hsame
    have hpgdir : k'.current.mm.pgdir = k.current.mm.pgdir := by
      unfold KState.current
      rw [hsame]
      exact place_pgdir hk hop hstay hk.current_mem
    rw [hpgdir] at hcur ⊢
    exact h.mono hdirs hcur hzero hunused
  · exact (h.switch (hdirs hcur)).mono hdirs hcur hzero hunused

/-- Who bears a child has asked for it. -/
theorem bears_asks (hp : op.Bears k p) : asks function k op ≠ none := by
  intro hnone
  cases op with
  | syscall env frame =>
    rw [asks, if_pos hp.1] at hnone
    cases hnone
  | execInitFn env size => cases hnone
  | execFn env addr size => cases hnone
  | execUserFn env size => cases hnone
  | _ => exact hp.elim

theorem asks_not_reaps {r : SpawnEnv × Option (ℕ × SpawnKind)} (hasks : asks function k op = some r) : ¬op.Reaps k z := by
  intro hz
  cases op with
  | waitRound first fuel wstatus => cases hasks
  | reap fuel a => cases hasks
  | _ => exact hz.elim

/-- A task that is found dead leaves. -/
theorem reaps_leaves (hk : Tended k kids order) (hz : op.Reaps k z) (hop : KStep op k k') :
    z ∈ k.live ∧ k'.live = k.live.erase z ∧ k'.taskCounter = k.taskCounter ∧ k'.initProc = k.initProc := by
  have hrest : ∀ {u v : KState} {fuel : ℕ}, SameKernel k u → Tasks.taskReap fuel z u = .ok v →
      v.live = k.live.erase z ∧ v.taskCounter = k.taskCounter ∧ v.initProc = k.initProc := by
    intro u v fuel hu hreap
    have hr := taskReap_rest hreap
    exact ⟨by rw [hr, hu], by rw [hr, hu], by rw [hr, hu]⟩
  obtain ⟨hallowed, hrun⟩ := hop
  cases op with
  | waitRound first fuel wstatus =>
    have hchain := hk.kin.chain _ hk.current_mem
    have hmem : z ∈ kids k.currentTask := List.mem_of_find?_eq_some (hchain.find_of_some hz).symm
    refine ⟨(hk.kin.child _ hk.current_mem z hmem).1, ?_⟩
    have hz : findZombie fuel k = some (some z) := hz
    rcases waitRound_cases hrun with ⟨-, hnone, -, -⟩ | ⟨-, hnone, -⟩ | ⟨z', u, hfound, hu, hreap⟩
    · rw [KState.current] at hnone
      rw [hnone] at hchain
      rw [hchain.eq_nil] at hmem
      exact absurd hmem List.not_mem_nil
    · cases hnone.symm.trans hz
    · obtain rfl := Option.some.inj (Option.some.inj (hfound.symm.trans hz))
      exact hrest hu hreap
  | reap fuel a =>
    obtain rfl : z = a := hz
    exact ⟨hallowed.1, hrest (u := k) rfl (toOption_eq_some.mp hrun)⟩
  | _ => exact hz.elim

/-- The pid that is asked for is one that no task was given. -/
theorem asks_unused (hallowed : op.Allowed k) (hasks : asks function k op = some (env, some (pid, kind))) :
    pid ∈ unused k := by
  obtain ⟨hpid, -, hroom⟩ := asks_pid hasks
  split at hpid
  · rename_i hinits
    cases op with
    | execInitFn env' size =>
      rw [hpid]
      exact ⟨by decide, .inr ⟨rfl, hallowed.2⟩⟩
    | _ => cases hinits
  · rw [hpid]
    exact ⟨by omega, .inl (Nat.lt_succ_self _)⟩

end Step

variable {kids : ℕ → List ℕ} {order : List ℕ} {ledger : Ledger}

/-- A struct that the pool hands out is none of a task. -/
theorem Backed.outside (h : Backed L s) (habove : Kmalloc.kcpoolVirtBase < a) (hfresh : a ∉ s.mem.objects) : a ∉ s.tasks.live := by
  intro ha
  rcases h.structs a ha with rfl | rfl | ha
  · exact absurd habove (by decide)
  · exact absurd habove (by decide)
  · exact hfresh ha

@[simp] theorem reload_objects (n : MemState) : (n.reload L k k').objects = n.objects := by
  unfold MemState.reload
  split <;> rfl

theorem dirs_subset (hk : Tended k kids order) (hop : KStep op k k') (hsub : k'.live ⊆ k.live) : dirs k' ⊆ dirs k := by
  rintro d ⟨a, ha, rfl⟩
  exact ⟨a, hsub ha, place_pgdir hk hop ha (hsub ha)⟩

theorem unused_subset (hcounter : k'.taskCounter = k.taskCounter) (hinit : k'.initProc = k.initProc) :
    unused k' ⊆ unused k := by
  rintro pid ⟨hlt, hfree⟩
  rw [hcounter, hinit] at hfree
  exact ⟨hlt, hfree⟩

/-- The pid of a new task was unused, and is used now. -/
theorem unused_numbered {c : ℕ} (h : Numbered op c k k') (hroster : Roster k ledger) :
    unused k' ⊆ unused k \ {(k'.task c).pid} := by
  have hcounter := hroster.counter
  rintro pid ⟨hlt, hfree⟩
  cases h with
  | claimed hop hroom hcount hpid hinit =>
    rw [hcount, hinit] at hfree
    refine ⟨⟨hlt, hfree.imp_left fun hlt => by omega⟩, ?_⟩
    rw [Set.mem_singleton_iff, hpid]
    rintro rfl
    rcases hfree with hfree | ⟨hfree, -⟩
    · omega
    · simp only [initPid] at hfree
      omega
  | reserved hop hcount hpid hnone hinit =>
    rw [hcount, hinit] at hfree
    have hfree : k.taskCounter < pid := hfree.resolve_right fun hc => by cases hc.2
    refine ⟨⟨hlt, .inl hfree⟩, ?_⟩
    rw [Set.mem_singleton_iff, hpid]
    rintro rfl
    simp only [initPid] at hfree
    omega

section Operation

variable {kids' : ℕ → List ℕ} {order' : List ℕ} {n : MemState} {c z : ℕ}

/-- No task came or left. -/
theorem Backed.kept (h : Backed L s) (hk : Tended s.tasks kids order) (hk' : Tended k kids' order') (hplaced : Placed k)
    (hop : KStep op s.tasks k) (hn : InOrder L s.tasks.current.mm.pgdir (dirs s.tasks) (unused s.tasks) n)
    (hobjects : n.objects = s.mem.objects) (hlive : k.live = s.tasks.live) (hcounter : k.taskCounter = s.tasks.taskCounter)
    (hinit : k.initProc = s.tasks.initProc) : Backed L ⟨k, n.reload L s.tasks k⟩ := by
  refine ⟨settle hk hk' hplaced hop hn (dirs_subset hk hop hlive.subset) (unused_subset hcounter hinit) ?_, fun a ha => ?_⟩
  · rw [hlive]
    exact hk.current_mem
  · rw [reload_objects, hobjects]
    exact h.structs a (hlive ▸ ha)

/-- The task `c` came, with the directory of its pid. -/
theorem Backed.joined (h : Backed L s) (hk : Tended s.tasks kids order) (hk' : Tended k kids' order') (hplaced : Placed k)
    (hroster : Roster s.tasks ledger) (hop : KStep op s.tasks k) (hc : c ∉ s.tasks.live)
    (hlive : k.live = insert c s.tasks.live) (hnum : Numbered op c s.tasks k) (hobjects : n.objects = insert c s.mem.objects)
    (hn : InOrder L s.tasks.current.mm.pgdir (insert (k.task c).pid (dirs s.tasks)) (unused s.tasks \ {(k.task c).pid}) n) :
    Backed L ⟨k, n.reload L s.tasks k⟩ := by
  have hcinit : c ≠ initTask := by
    rintro rfl
    exact hc hk.init
  have hckthreadd : c ≠ kthreaddTask := by
    rintro rfl
    exact hc hk.kthreadd
  refine ⟨settle hk hk' hplaced hop hn ?_ (unused_numbered hnum hroster) ?_, fun b hb => ?_⟩
  · rintro d ⟨b, hb, rfl⟩
    rw [hlive] at hb
    rcases Finset.mem_insert.mp hb with rfl | hold
    · left
      exact (place_eq (hplaced.other b (hlive ▸ hb) hcinit hckthreadd)).2.2
    · exact .inr ⟨b, hold, place_pgdir hk hop (hlive ▸ hb) hold⟩
  · rw [hlive]
    exact Finset.mem_insert_of_mem hk.current_mem
  · rw [reload_objects, hobjects]
    rw [hlive] at hb
    rcases Finset.mem_insert.mp hb with rfl | hold
    · exact .inr (.inr (Finset.mem_insert_self b _))
    · exact (h.structs b hold).imp_right fun hb => hb.imp_right fun hb => Finset.mem_insert_of_mem hb

/-- The task `z` was found dead and left. -/
theorem Backed.left (h : Backed L s) (hk : Tended s.tasks kids order) (hk' : Tended k kids' order') (hplaced : Placed s.tasks)
    (hplaced' : Placed k) (hroster : Roster s.tasks ledger) (hop : KStep op s.tasks k) (hz : op.Reaps s.tasks z) {fuel : ℕ}
    (hok : releaseMemory L fuel z (s.tasks.task z) s.mem = .ok n) : Backed L ⟨k, n.reload L s.tasks k⟩ := by
  obtain ⟨hmem, hlive, hcounter, hinit⟩ := reaps_leaves hk hz hop
  obtain ⟨hzi, hzombie, hcur⟩ := hk.reaps hop.allowed hz
  have hzk : z ≠ kthreaddTask := fun he => hk.idle (he ▸ hzombie)
  obtain ⟨hpid, hpos, hother, hkstack⟩ := dead_pgdir hroster hplaced hk hmem hzi hzk hcur
  have hz' : z ∈ s.mem.objects := ((h.structs z hmem).resolve_left hzi).resolve_left hzk
  obtain ⟨hobj, hn⟩ := h.mem.release hz' hpid hpos hother hkstack n hok
  have hsub : k.live ⊆ s.tasks.live := hlive ▸ Finset.erase_subset z _
  refine ⟨settle hk hk' hplaced' hop hn (dirs_subset hk hop hsub) (unused_subset hcounter hinit) ?_, fun a ha => ?_⟩
  · rw [hlive]
    exact Finset.mem_erase.mpr ⟨hcur.symm, hk.current_mem⟩
  · rw [reload_objects, hobj]
    rw [hlive] at ha
    obtain ⟨hne, hold⟩ := Finset.mem_erase.mp ha
    exact (h.structs a hold).imp_right fun ha => ha.imp_right fun ha => Finset.mem_erase.mpr ⟨hne, ha⟩

/-- A task that came has the pid that was asked for. -/
theorem asks_numbered (hasks : asks function k op = some (env, some (pid, kind))) (hnum : Numbered op c k k') :
    (k'.task c).pid = pid := by
  obtain ⟨hnumber, -, -⟩ := asks_pid hasks
  rw [hnumber]
  cases hnum with
  | claimed hop _ _ hpid =>
    rw [hop]
    exact hpid
  | reserved hop _ hpid =>
    rw [hop]
    exact hpid

/-- A task that came has the struct that was handed out for it. -/
theorem asks_joined {r : Option (ℕ × SpawnKind)} (hasks : asks function k op = some (env, r)) (hop : KStep op k k')
    (hc : c ∉ k.live) (hlive : k'.live = insert c k.live) : env.kmalloc = some c := by
  rcases asks_live hasks hop (hlive ▸ Finset.mem_insert_self c _) with hold | hnew
  · exact absurd hold hc
  · exact hnew

end Operation

theorem Backed.operation (h : Backed L s) (hk : Tended s.tasks kids order) (hroster : Roster s.tasks ledger)
    (hplaced : Placed s.tasks) (hcpu : op.OnCpu s.tasks) (hop : KStep op s.tasks k) (hmem : MemoryStep L op s m) :
    Backed L ⟨k, m.reload L s.tasks k⟩ := by
  have htended := hk.step hcpu hop
  have hplaced' := hplaced.step hk htended hop
  obtain ⟨kids', order', hk'⟩ := htended
  cases hmem with
  | quiet hasks hreaps =>
    cases rollStep hk.settled hop with
    | same hlive hcounter hinit => exact h.kept hk hk' hplaced' hop h.mem rfl hlive hcounter hinit
    | joined p c hp => exact absurd hasks (bears_asks hp)
    | left z hz => exact absurd hz (hreaps z)
  | @spawn fuel function env request m hasks hok =>
    cases request with
    | none =>
      obtain ⟨rfl, rfl⟩ := Prod.mk.inj (Except.ok.inj hok)
      cases rollStep hk.settled hop with
      | same hlive hcounter hinit => exact h.kept hk hk' hplaced' hop h.mem rfl hlive hcounter hinit
      | joined p c hp hc hlive => cases asks_joined hasks hop hc hlive
      | left z hz => exact absurd hz (asks_not_reaps hasks)
    | some r =>
      obtain ⟨pid, kind⟩ := r
      have hpid := asks_unused hop.allowed hasks
      obtain ⟨-, hsized, -⟩ := asks_pid hasks
      have hnew := unused_not_dir hroster hplaced hpid
      have hspawned : Spawned L _ pid kind _ _ s.mem (env, m) := h.mem.spawn hpid hnew hsized _ hok
      cases hspawned with
      | granted a n habove hfresh hobj hn =>
        cases rollStep hk.settled hop with
        | same hlive => exact absurd hlive (asks_adds hasks (h.outside habove hfresh) hop)
        | joined p c hp hc hlive hcurrent hnum =>
          obtain rfl : a = c := Option.some.inj (asks_joined hasks hop hc hlive)
          rw [← asks_numbered hasks hnum] at hn
          exact h.joined hk hk' hplaced' hroster hop hc hlive hnum hobj hn
        | left z hz => exact absurd hz (asks_not_reaps hasks)
      | refused a pages n habove hfresh hpages hobj hn =>
        cases rollStep hk.settled hop with
        | same hlive hcounter hinit => exact h.kept hk hk' hplaced' hop hn hobj hlive hcounter hinit
        | joined p c hp hc hlive hcurrent hnum =>
          obtain rfl : a = c := Option.some.inj (asks_joined hasks hop hc hlive)
          have hin : a ∈ k.live := hlive ▸ Finset.mem_insert_self a _
          exact absurd hin (asks_refuses hasks hpages hc hop)
        | left z hz => exact absurd hz (asks_not_reaps hasks)
  | @reap fuel z m hz hok => exact h.left hk hk' hplaced hplaced' hroster hop hz hok

theorem Backed.step (h : Backed L s) (hk : Tended s.tasks kids order) (hroster : Roster s.tasks ledger)
    (hplaced : Placed s.tasks) (hstep : SystemStep L s t) : Backed L t := by
  cases hstep with
  | operation hcpu hop hmem => exact h.operation hk hroster hplaced hcpu hop hmem
  | kmalloc h₁ h₂ hok =>
    obtain ⟨-, hhanded⟩ := kmalloc_handed h.mem.pooled h₁ h₂ hok
    refine ⟨h.mem.kmalloc hhanded, fun a ha => ?_⟩
    rw [hhanded.objects]
    exact (h.structs a ha).imp_right fun ha => ha.imp_right fun ha => Finset.mem_insert_of_mem ha
  | @kfree fuel a m ha hfree hok =>
    obtain ⟨n, hreturned, hunique, -⟩ := kfree_returned h.mem.pooled ha (h.mem.freePage_object ha)
    obtain rfl := hunique fuel m hok
    refine ⟨h.mem.kfree ha hreturned, fun b hb => ?_⟩
    rw [hreturned.objects]
    have hne : b ≠ a := fun he => hfree (he ▸ hb)
    exact (h.structs b hb).imp_right fun hb => hb.imp_right fun hb => Finset.mem_erase.mpr ⟨hne, hb⟩
  | @write c a v hc ha ha' =>
    obtain ⟨request, hpool⟩ := h.mem.pooled
    have hwritten := Kmalloc.poolInvariant_step hpool (.write v hc ha ha')
    obtain ⟨owner, hsound⟩ := h.mem.sound
    exact ⟨h.mem.quiet hsound.advance_refl ⟨request, hwritten⟩ rfl, h.structs⟩
  | books bitmap regionList =>
    obtain ⟨owner, hsound⟩ := h.mem.sound
    exact ⟨h.mem.quiet hsound.advance_refl h.mem.pooled rfl, h.structs⟩
  | allocPage hva hok => exact ⟨h.mem.allocPage hva _ _ hok, h.structs⟩
  | freePage hva hok => exact ⟨h.mem.freePage hva _ hok, h.structs⟩
  | store hva hok => exact ⟨h.mem.store hva _ hok, h.structs⟩

/-- What holds in every state that the kernel reaches. -/
theorem SystemReachable.backed (h : SystemReachable L s) : Backed L s := by
  have hboth : SystemReachable L s ∧ Backed L s := by
    refine Reachable.invariant (I := fun s => SystemReachable L s ∧ Backed L s) (fun s hb => ⟨.start hb, .boot hb⟩) ?_ h
    rintro s t ⟨hs, hbacked⟩ hstep
    obtain ⟨hrun, ledger, hpids⟩ := hs.tasks
    obtain ⟨kids, order, hk⟩ := hrun.tended
    exact ⟨.next hs hstep, hbacked.step hk hpids.roster (placed_run hrun) hstep⟩
  exact hboth.2

end HekaOS.TaskMemory
