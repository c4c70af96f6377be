import HekaOS.SystemRuns
import HekaOS.FrameExclusivity
import HekaOS.VmallocInvariant

/-!
# Tasks that are granted

While there are frames, a creator is granted the struct, the kernel stack and the directory it asks for.
-/

namespace HekaOS.TaskMemory
open MachineWord KernelMemory KernelTriples PageWalk WordBitmap PhysPageFrame AddressMap Vmalloc Paging Tasks
open Kmalloc (Pool PoolShape cacheIndex kcpoolVirtBase kcpoolVirtMax cpoolHdrSize)

variable {L : Layout} {m n : MemState} {p : Pool} {s t : PagingState} {owner : ℕ → Owner} {live : Finset ℕ}
  {lists : ℕ → List ℕ} {dirs unused : Set ℕ} {a cur fuel i k pid size : ℕ}

/-! ### The struct -/

/-- With a page at hand, or with a chunk that is left, every size is served. -/
theorem kmalloc_served {ok : Bool} (h₁ : 1 ≤ size) (h₂ : size ≤ 256) (hzone : add32 p.vptr Kmalloc.pageSize ≤ kcpoolVirtMax)
    (hok : Drained size p → ok = true) : ∃ r, Kmalloc.kmalloc ok size p = .ok r := by
  rw [Kmalloc.kmalloc, if_neg (by omega), if_neg (by omega)]
  dsimp only
  split
  · rename_i hdrained
    have htrue : ok = true := hok hdrained
    rw [Kmalloc.cpoolRefill, if_neg (Nat.not_lt.mpr hzone), htrue]
    exact ⟨_, rfl⟩
  · exact ⟨_, rfl⟩

namespace InOrder

theorem kmalloc_returns (h : InOrder L cur dirs unused m) (h₁ : 1 ≤ size) (h₂ : size ≤ 256)
    (hspare : Drained size m.pool → Spare m.paging.bitmap 2) (hzone : add32 m.pool.vptr Kmalloc.pageSize ≤ kcpoolVirtMax) :
    ∃ t, TaskMemory.kmalloc size m = .ok t := by
  obtain ⟨owner, hs⟩ := h.sound
  have hva := h.pooled.vptr_page.paged
  have hne : m.pool.vptr ≠ 0 := by
    have := hva.above
    omega
  obtain ⟨r, hr, hgot⟩ : ∃ r, takePoolPage size m.vm = .ok r ∧ (Drained size m.pool → decide (r.1 ≠ 0) = true) := by
    unfold takePoolPage
    by_cases hgrows : poolGrows size m.vm.pool = true
    · obtain ⟨t, ht, -⟩ := hs.allocPage_succeeds (hs.homed.window (h.window cur h.current)) hva
        (hspare (of_decide_eq_true hgrows).1) (pagePresent ||| pageRw)
      rw [if_pos hgrows]
      exact ⟨_, ht, fun _ => decide_eq_true hne⟩
    · rw [if_neg hgrows]
      exact ⟨_, rfl, fun hdrained => absurd (decide_eq_true ⟨hdrained, hzone⟩) hgrows⟩
  have hserved : ∃ t, Kmalloc.kmalloc (decide (r.1 ≠ 0)) size m.vm.pool = .ok t := kmalloc_served h₁ h₂ hzone hgot
  obtain ⟨t, ht⟩ := hserved
  unfold TaskMemory.kmalloc kmallocObject
  rw [hr, ok_bind, ht]
  exact ⟨_, rfl⟩

/-- The object has taken a page and its page table at most, and the page is mapped. -/
theorem handed_spare (h : InOrder L cur dirs unused m) (hn : Handed size a m n) (hspare : Spare m.paging.bitmap (k + 2)) :
    Spare n.paging.bitmap k ∧
      (Drained size m.pool → Maps n.paging (L.dir cur) (pdIndex m.pool.vptr) (ptIndex m.pool.vptr)) := by
  obtain ⟨owner, hs⟩ := h.sound
  have hva := h.pooled.vptr_page.paged
  have hpage := hn.page
  split at hpage
  · obtain ⟨⟨r, hok, hpos, hr⟩, -⟩ := hpage
    obtain ⟨hallocs, -⟩ := hs.allocPage hva (pagePresent ||| pageRw) r hok
    have hunmapped : ¬Mapped m.paging.mem m.paging.cr3 m.pool.vptr := by
      rw [mapped_iff hs.cr3]
      exact fun hmaps => h.zone _ h.pooled.vptr_page le_rfl ⟨cur, h.cur_lt, hmaps⟩
    rw [hr]
    exact ⟨hallocs.spare hspare, fun _ => (hallocs.here hunmapped).mpr hpos⟩
  · rename_i hstocked
    rw [hpage.1]
    exact ⟨hspare.mono (by omega), fun hdrained => absurd hdrained hstocked⟩

end InOrder

/-! ### The kernel stack -/

/-- The two pages of the kernel stack of `pid` are mapped, and what was mapped before. -/
structure StackMapped (L : Layout) (cur pid k : ℕ) (s t : PagingState) : Prop where
  sound : ∃ owner, Sound L cur t owner
  spare : Spare t.bitmap k
  slots : ∀ p < kstackPages, Maps t (L.dir cur) kstackPdeIndex (2 * pid + p)
  others : ∀ i j, 0 < i → i < 1023 → j < 1024 → Maps s (L.dir cur) i j → Maps t (L.dir cur) i j

theorem mapKstack_succeeds (h : Sound L cur s owner) (hwindow : Window s (L.dir cur)) (hpid : pid < maxProc)
    (hspare : Spare s.bitmap (k + 4)) (hfree : SlotsFree L cur pid s) :
    ∃ t, mapKstack (kstackVa pid) (List.range kstackPages) s = .ok (none, t) ∧ StackMapped L cur pid k s t := by
  have hne : ∀ q < kstackPages, kstackVa pid + q * pageSize ≠ 0 := by
    intro q hq
    have := (slot_paged hpid hq).above
    omega
  have hlt : 2 * pid + 1 < 1024 := by
    simp only [maxProc] at hpid
    omega
  have hindex : kstackPdeIndex = 956 := by decide
  have hrange : List.range kstackPages = [0, 1] := rfl
  -- one page after the other
  have halloc : ∀ q < kstackPages, ∀ {k : ℕ} {u : PagingState}, (∃ owner, Sound L cur u owner) → Window u (L.dir cur) →
      Spare u.bitmap (k + 2) → ¬Maps u (L.dir cur) kstackPdeIndex (2 * pid + q) →
      ∃ v, Paging.allocPage (kstackVa pid + q * pageSize) (pagePresent ||| pageRw) u = .ok (kstackVa pid + q * pageSize, v) ∧
        (∃ owner, Sound L cur v owner) ∧ Window v (L.dir cur) ∧ Spare v.bitmap k ∧
        Maps v (L.dir cur) kstackPdeIndex (2 * pid + q) ∧ ∀ i j, 0 < i → i < 1023 → j < 1024 →
          ¬(i = kstackPdeIndex ∧ j = 2 * pid + q) → (Maps v (L.dir cur) i j ↔ Maps u (L.dir cur) i j) := by
    rintro q hq k u ⟨owner, hu⟩ hwindow hspare hunmapped
    obtain ⟨v, hv, hallocs, hsound, hwindow'⟩ :=
      hu.allocPage_succeeds hwindow (slot_paged hpid hq) (hspare.mono (by omega)) (pagePresent ||| pageRw)
    have hhere := hallocs.here
    have hothers := hallocs.others
    rw [mapped_iff hu.cr3] at hhere
    rw [slot_pdIndex hpid hq, slot_ptIndex hpid hq] at hhere hothers
    exact ⟨v, hv, hsound, hwindow', hallocs.spare hspare, (hhere hunmapped).mpr (hne q hq), hothers⟩
  obtain ⟨s₁, hok₁, hs₁, hwindow₁, hspare₁, hhere₁, hothers₁⟩ :=
    halloc 0 (by decide) (k := k + 2) ⟨owner, h⟩ hwindow hspare (hfree 0 (by decide))
  have hunmapped : ¬Maps s₁ (L.dir cur) kstackPdeIndex (2 * pid + 1) := by
    rw [hothers₁ _ _ (by decide) (by decide) hlt fun he => by omega]
    exact hfree 1 (by decide)
  obtain ⟨s₂, hok₂, hs₂, -, hspare₂, hhere₂, hothers₂⟩ := halloc 1 (by decide) (k := k) hs₁ hwindow₁ hspare₁ hunmapped
  refine ⟨s₂, ?_, hs₂, hspare₂, fun p hp => ?_, fun i j hi hi' hj hmaps => ?_⟩
  · rw [hrange, mapKstack, hok₁, ok_bind, if_neg (hne 0 (by decide)), mapKstack, hok₂, ok_bind, if_neg (hne 1 (by decide)),
      mapKstack]
  · have hpages : p = 0 ∨ p = 1 := by
      simp only [kstackPages] at hp
      omega
    rcases hpages with rfl | rfl
    · exact (hothers₂ _ _ (by decide) (by decide) (by omega) fun he => by omega).mpr hhere₁
    · exact hhere₂
  · have hout : ∀ q < kstackPages, ¬(i = kstackPdeIndex ∧ j = 2 * pid + q) := by
      rintro q hq ⟨rfl, rfl⟩
      exact hfree q hq hmaps
    rw [hothers₂ i j hi hi' hj (hout 1 (by decide)), hothers₁ i j hi hi' hj (hout 0 (by decide))]
    exact hmaps

/-! ### Kernel tasks -/

/-- Where there are six frames, a kernel task is granted. -/
theorem InOrder.kthread_granted (h : InOrder L cur dirs unused m) (hpid : pid ∈ unused) (hnew : pid ∉ dirs)
    (hspare : Spare m.paging.bitmap 6) (hzone : add32 m.pool.vptr Kmalloc.pageSize ≤ kcpoolVirtMax) :
    ∃ a n t, Handed taskSize a m n ∧ TaskMemory.spawn L fuel pid .kthread m = .ok (spawnAt a, n.withPaging t) ∧
      (∀ p < kstackPages, Maps t (L.dir cur) kstackPdeIndex (2 * pid + p)) ∧
      (Drained taskSize m.pool → Maps t (L.dir cur) (pdIndex m.pool.vptr) (ptIndex m.pool.vptr)) := by
  obtain ⟨⟨a, n⟩, hok⟩ := h.kmalloc_returns taskSize_served.1 taskSize_served.2 (fun _ => hspare.mono (by omega)) hzone
  obtain ⟨hpos, hhanded⟩ := kmalloc_handed h.pooled taskSize_served.1 taskSize_served.2 hok
  have hn : InOrder L cur dirs unused n := h.kmalloc hhanded
  obtain ⟨hspare', hmapped⟩ := h.handed_spare (k := 4) hhanded hspare
  have hspawnable := hn.spawnable hpid hnew
  obtain ⟨owner, hs⟩ := hn.sound
  obtain ⟨t, ht, hstack⟩ := mapKstack_succeeds (k := 0) hs (hs.homed.window (hn.window cur hn.current)) hspawnable.lt
    hspare' hspawnable.slots
  obtain ⟨ownert, hst⟩ := hstack.sound
  have hfurnished : TaskMemory.furnish L pid .kthread n.paging = .ok ((kstackPages, true), pagingProcInit L pid t) := by
    unfold TaskMemory.furnish
    rw [ht]
    rfl
  -- the directory of the new task is none of the frames that are looked at
  have hinit := pagingProcInit_within L pid t
  have hdir : L.dir cur ≠ L.dir pid := fun he => hspawnable.other (dir_inj he).symm
  have hkept : ∀ i j, 0 < i → i < 1023 → j < 1024 → Maps t (L.dir cur) i j → Maps (pagingProcInit L pid t) (L.dir cur) i j := by
    rintro i j hi hi' hj ⟨hpde, hpte⟩
    have htable := Owned.owner_ne_free (hst.owned.owner_table hst.cur_lt hi hi' hpde)
    have hentry : (pagingProcInit L pid t).entry (L.dir cur) i = t.entry (L.dir cur) i := hinit.entry hdir (by omega)
    refine ⟨?_, ?_⟩
    · rw [hentry]
      exact hpde
    · rw [hentry, hinit.entry (hst.owned.ne_dir htable hspawnable.lt) hj]
      exact hpte
  refine ⟨a, n, pagingProcInit L pid t, hhanded, ?_, fun p hp => ?_, fun hdrained => ?_⟩
  · unfold TaskMemory.spawn
    rw [hok, ok_bind]
    dsimp only
    rw [if_neg hpos, hfurnished]
    rfl
  · have hlt := (slot_index hspawnable.lt hp).entry
    exact hkept _ _ (by decide) (by decide) hlt (hstack.slots p hp)
  · have hindex := (poolPage_index h.pooled.vptr_page).1
    have hlow := hindex.low
    exact hkept _ _ (by omega) hindex.high hindex.entry
      (hstack.others _ _ (by omega) hindex.high hindex.entry (hmapped hdrained))

/-! ### Runs from boot -/

/-- The kernel reaches the tasks `k` with the memory `m`, whatever directory is loaded. -/
def Reaches (L : Layout) (m : MemState) (k : KState) : Prop :=
  ∃ r, SystemReachable L ⟨k, m.withPaging { m.paging with cr3 := r }⟩

/-- An operation that asks for no memory and reaps no task. -/
theorem Reaches.after {k : KState} {op : KOp} (h : Reaches L m k) (hcpu : op.OnCpu k) (hallowed : op.Allowed k)
    (hends : (op.run k).isSome = true) (hasks : asks 0 k op = none) (hreaps : ∀ z, ¬op.Reaps k z) :
    Reaches L m (k.after op) := by
  obtain ⟨r, hreachable⟩ := h
  have hstep : SystemReachable L ⟨k.after op, _⟩ :=
    .next hreachable (.operation hcpu (kstep_after hallowed hends) (.quiet hasks hreaps))
  unfold MemState.reload at hstep
  split at hstep
  · exact ⟨r, hstep⟩
  · exact ⟨_, hstep⟩

/-! ### The first task -/

/-- The kernel as it stands at boot, over empty memory. -/
def bootSystem : System := ⟨Tasks.bootState, ⟨vmBoot, ∅⟩⟩

theorem bootSystem_booted : SystemBooted sampleLayout bootSystem := ⟨⟨_, _, rfl⟩, bootState_booted, ⟨_, rfl⟩, rfl⟩

/-- The first struct that the pool hands out. -/
def firstStruct : ℕ := kcpoolVirtBase + cpoolHdrSize

/-- A kernel task is started. -/
def startThread : KOp := .execFn (spawnAt firstStruct) 0x00100000 64

/-- What is mapped behind the first kernel task: its stack and its struct. -/
structure ThreadMapped (s : PagingState) : Prop where
  stack : ∀ p < kstackPages, Maps s (sampleLayout.dir 0) kstackPdeIndex (2 * 3 + p)
  struct : Maps s (sampleLayout.dir 0) (pdIndex kcpoolVirtBase) (ptIndex kcpoolVirtBase)

theorem startThread_reachable : ∃ m, SystemReachable sampleLayout ⟨Tasks.bootState.after startThread, m⟩ ∧
    m.pool.vptr = kcpoolVirtBase + Kmalloc.pageSize ∧ m.objects = {firstStruct} ∧ ThreadMapped m.paging := by
  have hboot : SystemReachable sampleLayout bootSystem := .start bootSystem_booted
  have hmem : InOrder sampleLayout 0 (dirs Tasks.bootState) (unused Tasks.bootState) bootSystem.mem :=
    (Backed.boot bootSystem_booted).mem
  have hpid : 3 ∈ unused Tasks.bootState := ⟨by decide, .inl (by decide)⟩
  have hnew : 3 ∉ dirs Tasks.bootState :=
    unused_not_dir (Roster.boot_state bootSystem_booted.tasks) (Placed.boot bootSystem_booted.tasks) hpid
  have hdrained : Drained taskSize bootSystem.mem.pool := rfl
  obtain ⟨a, n, t, hhanded, hspawn, hstack, hstruct⟩ :=
    @InOrder.kthread_granted _ _ _ _ _ 0 _ hmem hpid hnew (bootState_spare.mono (by decide)) (by decide)
  have hpage := hhanded.page
  rw [if_pos hdrained] at hpage
  obtain ⟨-, rfl, -, hvptr, -⟩ := hpage
  have hop : KStep startThread Tasks.bootState (Tasks.bootState.after startThread) :=
    kstep_after (spawnAt_fresh (by decide)) rfl
  have hrequest : asks 0 bootSystem.tasks startThread = some (spawnAt firstStruct, some (3, .kthread)) := rfl
  have hcpu : startThread.OnCpu bootSystem.tasks := trivial
  have hstep : SystemStep sampleLayout bootSystem _ := .operation hcpu hop (.spawn 0 0 hrequest hspawn)
  have hsame : (Tasks.bootState.after startThread).currentTask = bootSystem.tasks.currentTask := by decide +kernel
  rw [MemState.reload, if_pos hsame] at hstep
  exact ⟨n.withPaging t, .next hboot hstep, hvptr, hhanded.objects, hstack, hstruct hdrained⟩

end HekaOS.TaskMemory
