import Mathlib.Algebra.Order.Group.Multiset
import Mathlib.Order.CompletePartialOrder
import Mathlib.Order.Interval.Finset.Nat
import HekaOS.AddressMap
import HekaOS.Kmalloc
import HekaOS.TaskTree

/-!
# Who carries which pid

A run keeps a ledger of the pids it hands out and takes back. `pid_alloc` counts upwards and
`pid_release` undoes the last claim, so the tasks of `exec_fn`, `exec_user_fn` and `task_fork`
carry the pids from 3 up to the counter, each one once; the tasks in use and the reaped ones
share out what the ledger holds.
-/

namespace HekaOS.Tasks
open KernelMemory PointerChain AddressMap

variable {s t u : KState} {a c p z fuel : ℕ} {order : List ℕ} {op : KOp} {trigger : Prop}

/-- The pids of a set of tasks. -/
def KState.pids (s : KState) (tasks : Finset ℕ) : Multiset ℕ := tasks.val.map fun a => (s.task a).pid

/-- The pids handed out in a run: to the tasks of the boot and to init, and to the tasks of
`exec_fn`, `exec_user_fn` and `task_fork`; and those of the tasks that were reaped. -/
structure Ledger where
  boot : Multiset ℕ
  spawned : Multiset ℕ
  reaped : Multiset ℕ

/-- `task_init` numbers `init_task` and `kthreadd_task`. -/
def bootLedger : Ledger := ⟨{0, 2}, 0, 0⟩

/-- An operation enters the tasks that exist behind it but not before it, and those that exist
before it but not behind it. -/
def Ledger.record (L : Ledger) (op : KOp) (s t : KState) : Ledger where
  boot := if op.inits then L.boot + t.pids (t.live \ s.live) else L.boot
  spawned := if op.inits then L.spawned else L.spawned + t.pids (t.live \ s.live)
  reaped := L.reaped + s.pids (s.live \ t.live)

/-- Runs of the kernel with their ledger. -/
inductive PidRun : KState → Ledger → Prop where
  | boot {s : KState} (h : Boot s) : PidRun s bootLedger
  | step {s t : KState} {L : Ledger} {op : KOp} (hs : PidRun s L) (h : KStep op s t) :
      PidRun t (L.record op s t)

/-- No task came, went, moved in the scheduler list or changed its pid. -/
structure Undisturbed (s t : KState) : Prop where
  live : t.live = s.live
  head : t.taskListHead = s.taskListHead
  counter : t.taskCounter = s.taskCounter
  initProc : t.initProc = s.initProc
  task : ∀ a ∈ s.live, t.next a = s.next a ∧ (t.task a).pid = (s.task a).pid

theorem Undisturbed.trans (h₁ : Undisturbed s t) (h₂ : Undisturbed t u) : Undisturbed s u := by
  refine ⟨h₂.live.trans h₁.live, h₂.head.trans h₁.head, h₂.counter.trans h₁.counter,
    h₂.initProc.trans h₁.initProc, fun a ha => ?_⟩
  obtain ⟨hn, hp⟩ := h₁.task a ha
  obtain ⟨hn', hp'⟩ := h₂.task a (h₁.live ▸ ha)
  exact ⟨hn'.trans hn, hp'.trans hp⟩

theorem CalmLive.undisturbed (h : CalmLive trigger s t) : Undisturbed s t :=
  ⟨h.rest.live, h.rest.head, h.rest.taskCounter, h.rest.initProc,
    fun a ha => ⟨(h.task a ha).next, (h.task a ha).pid⟩⟩

theorem undisturbed_modify (s : KState) (a : ℕ) (f : Task → Task) (hn : ∀ x, (f x).next = x.next)
    (hp : ∀ x, (f x).pid = x.pid) : Undisturbed s (s.modify a f) :=
  ⟨rfl, rfl, rfl, rfl, fun b _ =>
    ⟨s.modify_field a b f Task.next (hn _), s.modify_field a b f Task.pid (hp _)⟩⟩

theorem LinksOnly.undisturbed (h : LinksOnly s t) : Undisturbed s t :=
  ⟨h.globals.live, h.globals.head, h.globals.taskCounter, h.globals.initProc,
    fun a _ => ⟨congrFun h.next a, h.field Task.pid fun _ _ _ _ => rfl⟩⟩

theorem Exits.undisturbed (h : Exits a s t) : Undisturbed s t := by
  obtain ⟨fuel, code, u, v, hu, hv, ht, -⟩ := h
  have hcode : Undisturbed s (s.modify a fun x => { x with exitCode := code }) :=
    undisturbed_modify s a _ (fun _ => rfl) fun _ => rfl
  have hmark : Undisturbed v (v.modify a fun x => { x with state := .zombie }) :=
    undisturbed_modify v a _ (fun _ => rfl) fun _ => rfl
  have horphan : Undisturbed u v := (linksOnly_orphan hv).undisturbed
  exact ((hcode.trans hu.calmLive.undisturbed).trans horphan).trans (hmark.trans ht.calmLive.undisturbed)

theorem Switched.undisturbed (h : Switched s t) : Undisturbed s t := by
  obtain ⟨hlive, hhead, hcounter, hinit, htask⟩ := h.calm.calmLive.undisturbed
  exact ⟨hlive, hhead, hcounter, hinit, htask⟩

/-- A reaped task is off the scheduler list. -/
theorem taskReap_list (hl : Chain s.next s.taskListHead order) (h : taskReap fuel z s = .ok t) :
    (∃ order', Chain t.next t.taskListHead order' ∧ ∀ a ∈ order', a ∈ order ∧ a ≠ z) ∧
      ∀ a, (t.task a).pid = (s.task a).pid := by
  obtain ⟨hlist, -, hfield⟩ := taskReap_order hl h
  refine ⟨⟨order.erase z, hlist, fun a ha => ?_⟩, fun a => hfield Task.pid (fun _ _ _ _ _ => rfl) a⟩
  exact (hl.nodup.mem_erase_iff.mp ha).symm

/-- What one operation means for the pids. -/
inductive PidStep (op : KOp) (s t : KState) : Prop where
  | undisturbed (h : Undisturbed s t)
  | born (p c : ℕ) (hb : Born p c s t) (hnum : Numbered op c s t)
  | reaped (z fuel : ℕ) (u : KState) (hu : SameKernel s u) (h : taskReap fuel z u = .ok t)

theorem pidStep (hs : s.needResched = false) (h : KStep op s t) : PidStep op s t := by
  cases step_cases hs h with
  | calm h => exact .undisturbed h.undisturbed
  | blocks hscan h =>
    subst h
    exact .undisturbed (undisturbed_modify s _ _ (fun _ => rfl) fun _ => rfl)
  | exits a hends hlisted h => exact .undisturbed h.undisturbed
  | switched u htick hu h =>
    refine .undisturbed (Undisturbed.trans ?_ h.undisturbed)
    rcases hu with hcalm | ⟨-, hexits⟩
    · exact hcalm.calmLive.undisturbed
    · exact hexits.undisturbed
  | born p c hp hb hinit hnum => exact .born p c hb hnum
  | reaped z fuel u hz hu h => exact .reaped z fuel u hu h

/-- What comes and what goes accounts for the difference between two sets. -/
theorem map_val_add_sdiff {α β : Type} [DecidableEq α] {A B : Finset α} {f g : α → β}
    (h : ∀ a ∈ A, a ∈ B → g a = f a) :
    B.val.map g + (A \ B).val.map f = A.val.map f + (B \ A).val.map g := by
  have hcut : ∀ (X Y : Finset α) (k : α → β),
      X.val.map k = (X ∩ Y).val.map k + (X \ Y).val.map k := by
    intro X Y k
    rw [← Multiset.map_add, ← Finset.filter_mem_eq_inter, Finset.sdiff_eq_filter, Finset.filter_val,
      Finset.filter_val, Multiset.filter_add_not]
  have hcommon : (B ∩ A).val.map g = (A ∩ B).val.map f := by
    rw [Finset.inter_comm]
    apply Multiset.map_congr rfl
    intro a ha
    obtain ⟨haA, haB⟩ := Finset.mem_inter.mp ha
    exact h a haA haB
  rw [hcut B A g, hcut A B f, hcommon, add_right_comm]

/-- The pids a run has handed out are accounted for, and the scheduler list is in order. -/
structure Roster (s : KState) (L : Ledger) : Prop where
  settled : s.needResched = false
  counter : 2 ≤ s.taskCounter ∧ s.taskCounter < maxProc
  boot : L.boot = {0, 2} ∨ L.boot = {0, 2, initPid} ∧ s.initProc ≠ none
  spawned : L.spawned = (Finset.Ioc 2 s.taskCounter).val
  kept : s.pids s.live + L.reaped = L.boot + L.spawned
  listed : ∃ order, Chain s.next s.taskListHead order ∧ ∀ a ∈ order, a ∈ s.live

theorem Roster.boot_state (h : Boot s) : Roster s bootLedger := by
  obtain ⟨junk, user, rfl⟩ := h
  refine ⟨rfl, ⟨le_refl 2, (by decide : 2 < maxProc)⟩, .inl rfl, rfl, rfl, [initTask], ?_, ?_⟩
  · exact ⟨rfl, rfl⟩
  · intro a ha
    exact Finset.mem_insert.mpr (.inl (List.mem_singleton.mp ha))

/-- The ledger balances behind a step that gives no task in use another pid. -/
theorem Roster.kept_record {L : Ledger} (h : Roster s L) (op : KOp)
    (hpid : ∀ a ∈ s.live, a ∈ t.live → (t.task a).pid = (s.task a).pid) :
    t.pids t.live + (L.record op s t).reaped = (L.record op s t).boot + (L.record op s t).spawned := by
  have hboth : (L.record op s t).boot + (L.record op s t).spawned =
      L.boot + L.spawned + t.pids (t.live \ s.live) := by
    unfold Ledger.record
    cases op.inits with
    | false => exact (add_assoc L.boot L.spawned _).symm
    | true => exact add_right_comm L.boot _ L.spawned
  have hmove : t.pids t.live + s.pids (s.live \ t.live) = s.pids s.live + t.pids (t.live \ s.live) :=
    map_val_add_sdiff hpid
  calc t.pids t.live + (L.record op s t).reaped
      = t.pids t.live + s.pids (s.live \ t.live) + L.reaped := by
        rw [add_assoc, add_comm (s.pids _)]
        rfl
    _ = s.pids s.live + L.reaped + t.pids (t.live \ s.live) := by
        rw [hmove, add_right_comm]
    _ = (L.record op s t).boot + (L.record op s t).spawned := by rw [h.kept, hboth]

/-- Nothing is handed out by an operation that creates no task. -/
theorem Ledger.record_of_subset (L : Ledger) (op : KOp) (h : t.live ⊆ s.live) :
    (L.record op s t).boot = L.boot ∧ (L.record op s t).spawned = L.spawned := by
  have hnew : t.pids (t.live \ s.live) = 0 := by
    rw [Finset.sdiff_eq_empty_iff_subset.mpr h]
    rfl
  unfold Ledger.record
  rw [hnew, add_zero, add_zero, ite_self, ite_self]
  exact ⟨rfl, rfl⟩

theorem Roster.undisturbed {L : Ledger} (h : Roster s L) (op : KOp) (hsettled : t.needResched = false)
    (hd : Undisturbed s t) : Roster t (L.record op s t) := by
  obtain ⟨hboot, hspawned⟩ := L.record_of_subset op hd.live.subset
  obtain ⟨order, hl, hlive⟩ := h.listed
  refine ⟨hsettled, hd.counter ▸ h.counter, ?_, ?_, h.kept_record op fun a ha _ => (hd.task a ha).2,
    order, ?_, fun a ha => hd.live ▸ hlive a ha⟩
  · rw [hboot, hd.initProc]
    exact h.boot
  · rw [hspawned, hd.counter]
    exact h.spawned
  · rw [hd.head]
    exact hl.congr fun a ha => (hd.task a (hlive a ha)).1

theorem Roster.reaped {L : Ledger} (h : Roster s L) (op : KOp) (hsettled : t.needResched = false)
    (hu : SameKernel s u) (hreap : taskReap fuel z u = .ok t) : Roster t (L.record op s t) := by
  have hrest := taskReap_rest hreap
  have hcalm : Calm False s u := hu.calm
  have hsame : Undisturbed s u := hcalm.calmLive.undisturbed
  have hlive : t.live = s.live.erase z := by rw [hrest, hsame.live]
  obtain ⟨hboot, hspawned⟩ := L.record_of_subset op (hlive ▸ Finset.erase_subset z s.live)
  obtain ⟨order, hl, hmem⟩ := h.listed
  have hlu : Chain u.next u.taskListHead order := by
    rw [hsame.head]
    exact hl.congr fun a ha => (hsame.task a (hmem a ha)).1
  obtain ⟨⟨order', hl', hmem'⟩, hpid⟩ := taskReap_list hlu hreap
  have hcounter : t.taskCounter = s.taskCounter := by rw [hrest, hsame.counter]
  refine ⟨hsettled, hcounter ▸ h.counter, ?_, ?_, h.kept_record op fun a ha _ => ?_, order', hl', ?_⟩
  · rw [hboot, hrest, hsame.initProc]
    exact h.boot
  · rw [hspawned, hcounter]
    exact h.spawned
  · exact (hpid a).trans (hsame.task a ha).2
  · intro a ha
    rw [hlive]
    exact Finset.mem_erase.mpr ⟨(hmem' a ha).2, hmem a (hmem' a ha).1⟩

theorem Roster.born {L : Ledger} (h : Roster s L) (hsettled : t.needResched = false) (hb : Born p c s t)
    (hnum : Numbered op c s t) : Roster t (L.record op s t) := by
  have hlive : t.live = insert c s.live := by rw [hb.rest]
  have hnew : t.live \ s.live = {c} := by
    rw [hlive, Finset.insert_sdiff_of_notMem _ hb.fresh, Finset.sdiff_self]
    rfl
  have hpids : t.pids (t.live \ s.live) = {(t.task c).pid} := by
    rw [hnew]
    rfl
  obtain ⟨order, hl, hmem⟩ := h.listed
  have hne : ∀ a ∈ s.live, a ≠ c := fun a ha he => hb.fresh (he ▸ ha)
  have hlist : Chain t.next t.taskListHead (c :: order) := by
    refine ⟨by rw [hb.rest], ?_⟩
    rw [hb.delivered.next]
    exact hl.congr fun a ha => (hb.delivered.task a (hne a (hmem a ha))).2.2.1
  have hlisted : ∀ a ∈ c :: order, a ∈ t.live := by
    intro a ha
    rw [hlive]
    rcases List.mem_cons.mp ha with rfl | ha
    · exact Finset.mem_insert_self a _
    · exact Finset.mem_insert_of_mem (hmem a ha)
  have hkept := h.kept_record op fun a ha _ => hb.field (hne a ha) Task.pid fun _ _ _ _ => rfl
  have hcounter := h.counter
  cases hnum with
  | claimed hop hroom hcount hpid hinit =>
    have hboot : (L.record op s t).boot = L.boot := by simp [Ledger.record, hop]
    have hspawned : (L.record op s t).spawned = L.spawned + {(t.task c).pid} := by
      simp [Ledger.record, hop, hpids]
    refine ⟨hsettled, by omega, ?_, ?_, hkept, _, hlist, hlisted⟩
    · rw [hboot, hinit]
      exact h.boot
    · rw [hspawned, h.spawned, hpid, hcount, add_comm, Multiset.singleton_add]
      have hcons : Finset.Ioc 2 (s.taskCounter + 1) =
          Finset.cons (s.taskCounter + 1) (Finset.Ioc 2 s.taskCounter) (by simp) := by
        ext n
        simp only [Finset.mem_Ioc, Finset.mem_cons]
        omega
      rw [hcons]
      rfl
  | reserved hop hcount hpid hnone hinit =>
    have hboot : (L.record op s t).boot = L.boot + {(t.task c).pid} := by
      simp [Ledger.record, hop, hpids]
    have hspawned : (L.record op s t).spawned = L.spawned := by simp [Ledger.record, hop]
    refine ⟨hsettled, hcount ▸ hcounter, .inr ⟨?_, ?_⟩, ?_, hkept, _, hlist, hlisted⟩
    · rw [hboot, hpid, h.boot.resolve_right fun hi => hi.2 hnone]
      rfl
    · rw [hinit]
      exact Option.some_ne_none c
    · rw [hspawned, hcount]
      exact h.spawned

theorem PidRun.roster {L : Ledger} (h : PidRun s L) : Roster s L := by
  induction h with
  | boot h => exact .boot_state h
  | step hs h ih =>
    have hsettled := needResched_step ih.settled h
    cases pidStep ih.settled h with
    | undisturbed hd => exact ih.undisturbed _ hsettled hd
    | born p c hb hnum => exact ih.born hsettled hb hnum
    | reaped z fuel u hu hreap => exact ih.reaped _ hsettled hu hreap

namespace Roster

variable {L : Ledger} (h : Roster s L)
include h

theorem boot_lt : ∀ pid ∈ L.boot, pid < 3 := by
  rcases h.boot with hb | ⟨hb, -⟩
  all_goals
    rw [hb]
    decide

theorem mem_spawned {pid : ℕ} : pid ∈ L.spawned ↔ 2 < pid ∧ pid ≤ s.taskCounter := by
  rw [h.spawned, Finset.mem_val, Finset.mem_Ioc]

theorem card_spawned : L.spawned.card = s.taskCounter - 2 := by
  rw [h.spawned, Finset.card_val, Nat.card_Ioc]

theorem once : (L.boot + L.spawned).Nodup := by
  rw [Multiset.nodup_add]
  refine ⟨?_, ?_, ?_⟩
  · rcases h.boot with hb | ⟨hb, -⟩
    all_goals
      rw [hb]
      decide
  · rw [h.spawned]
    exact (Finset.Ioc 2 s.taskCounter).nodup
  · apply Multiset.disjoint_left.mpr
    intro pid hb hp
    have hlt := h.boot_lt pid hb
    have hle := h.mem_spawned.mp hp
    omega

theorem mem_live (ha : a ∈ s.live) : (s.task a).pid ∈ L.boot + L.spawned := by
  rw [← h.kept]
  exact Multiset.mem_add.mpr (.inl (Multiset.mem_map_of_mem _ ha))

theorem pid_lt (ha : a ∈ s.live) : (s.task a).pid < maxProc := by
  have hcounter := h.counter
  rcases Multiset.mem_add.mp (h.mem_live ha) with hb | hp
  · have hlt := h.boot_lt _ hb
    exact lt_of_lt_of_le hlt (by decide)
  · have hle := h.mem_spawned.mp hp
    omega

/-- Two tasks in use have different pids. -/
theorem pid_inj {b : ℕ} (ha : a ∈ s.live) (hb : b ∈ s.live) (hpid : (s.task a).pid = (s.task b).pid) :
    a = b := by
  have hnodup : (s.pids s.live).Nodup :=
    Multiset.nodup_of_le (Multiset.le_add_right _ L.reaped) (h.kept ▸ h.once)
  exact Multiset.inj_on_of_nodup_map hnodup a ha b hb hpid

end Roster

/-- `[KSTACK_VA_BASE + pid * 8192, + 8192)` -/
def kstackRange (pid : ℕ) : Set ℕ := Set.Ico (kstackVa pid) (kstackVa pid + kstackPages * pageSize)

/-- The two scratch pages of `paging.c`, the chunk pool and the vmalloc zone. -/
def foreignZones : Set ℕ :=
  Set.Ico forkScratchPtVa (forkScratchPtVa + pageSize) ∪ Set.Ico forkScratchDataVa (forkScratchDataVa + pageSize) ∪
    Set.Icc Kmalloc.kcpoolVirtBase Kmalloc.kcpoolVirtMax ∪ Set.Icc vmallocBase vmallocMax

theorem kstackRange_disjoint {m n : ℕ} (h : m ≠ n) : Disjoint (kstackRange m) (kstackRange n) := by
  rw [Set.disjoint_left]
  intro va hm hn
  simp only [kstackRange, kstackVa, kstackVaBase, kstackPages, pageSize, Set.mem_Ico] at hm hn
  omega

theorem kstackRange_foreign {n : ℕ} (h : n < maxProc) : Disjoint (kstackRange n) foreignZones := by
  rw [Set.disjoint_left]
  intro va hva hzone
  simp only [kstackRange, kstackVa, kstackVaBase, kstackPages, pageSize, Set.mem_Ico] at hva
  simp only [foreignZones, forkScratchPtVa, forkScratchDataVa, pageSize, Kmalloc.kcpoolVirtBase,
    Kmalloc.kcpoolVirtMax, vmallocBase, vmallocMax, Set.mem_union, Set.mem_Ico, Set.mem_Icc] at hzone
  simp only [maxProc] at h
  omega

/-- The scheduler list holds tasks with pids of their own, and no pid was given out twice. -/
structure PidSafe (s : KState) (L : Ledger) (order : List ℕ) : Prop where
  list : Chain s.next s.taskListHead order
  distinct : (order.map fun a => (s.task a).pid).Nodup
  bound : ∀ a ∈ order, (s.task a).pid < maxProc
  dynamic : ∀ pid ∈ L.spawned, pid ≠ 0 ∧ pid ≠ 1 ∧ pid ≠ 2
  entered : ∀ a ∈ order, (s.task a).pid ∈ L.boot + L.spawned
  once : (L.boot + L.spawned).Nodup
  kstacks : order.Pairwise fun a b => Disjoint (kstackRange (s.task a).pid) (kstackRange (s.task b).pid)
  zones : ∀ a ∈ order, Disjoint (kstackRange (s.task a).pid) foreignZones

theorem pid_safety (s : KState) (L : Ledger) (h : PidRun s L) : ∃ order, PidSafe s L order := by
  have hr := h.roster
  obtain ⟨order, hl, hlive⟩ := hr.listed
  have hdistinct : (order.map fun a => (s.task a).pid).Nodup := by
    apply List.Nodup.map_on _ hl.nodup
    intro a ha b hb hpid
    exact hr.pid_inj (hlive a ha) (hlive b hb) hpid
  refine ⟨order, hl, hdistinct, fun a ha => hr.pid_lt (hlive a ha), fun pid hp => ?_,
    fun a ha => hr.mem_live (hlive a ha), hr.once, ?_, fun a ha => ?_⟩
  · have hle := hr.mem_spawned.mp hp
    omega
  · apply List.Pairwise.imp _ (List.pairwise_map.mp hdistinct)
    intro a b hne
    exact kstackRange_disjoint hne
  · exact kstackRange_foreign (hr.pid_lt (hlive a ha))

theorem PidRun.after {L : Ledger} (h : PidRun s L) (op : KOp) (hallowed : op.Allowed s)
    (hends : (op.run s).isSome = true) : PidRun (s.after op) (L.record op s (s.after op)) :=
  .step h (kstep_after hallowed hends)

/-- Init and one of its children. -/
theorem pid_safety_child :
    let s := (bootState.after (.execInitFn (spawnAt 10) 100)).after (.execUserFn (spawnAt 11) 100)
    (s.task 11).pid = 3 ∧ ∃ L order, PidSafe s L order := by
  intro s
  have hboot : PidRun bootState bootLedger := .boot ⟨_, _, rfl⟩
  have hinit := hboot.after (.execInitFn (spawnAt 10) 100) ⟨spawnAt_fresh (by decide +kernel), rfl⟩
    (by decide +kernel)
  have hchild := hinit.after (.execUserFn (spawnAt 11) 100) (spawnAt_fresh (by decide +kernel))
    (by decide +kernel)
  exact ⟨by decide +kernel, _, pid_safety s _ hchild⟩

end HekaOS.Tasks
