import HekaOS.FirstTasks
import HekaOS.ForkPrivacy

/-!
# The first user task

The loader reads its image through the first page table, which no call stores to. While there are frames, the task that
`exec_init_fn` creates is granted, and when the boot task stops it comes on the CPU.
-/

namespace HekaOS.Paging
open MachineWord KernelMemory KernelTriples PageWalk WordBitmap PhysPageFrame AddressMap

variable {L : Layout} {s t b : PagingState} {owner : ℕ → Owner} {cur f g n p q src va K : ℕ}

/-! ### The first page table -/

theorem TableMade.legible (h : TableMade L cur p s b) (hp : p ≠ 0) (hlegible : Legible L (L.dir cur) src n s) :
    Legible L (L.dir cur) src n b := by
  obtain ⟨owner, hb⟩ := h.sound
  refine hlegible.congr (hb.cr3.trans hlegible.cr3.symm) ?_ h.fpt
  exact h.pdes cur hb.cur_lt 0 (by decide) fun he => hp he.2.symm

namespace Sound

/-- A page that is mapped leaves the first page table as it was. -/
theorem pageIn_legible (h : Sound L cur b owner) (hd : Tabled (L.dir cur) K p b) (hp : 0 < p) (hp' : p < 1023)
    (hin : PageIn K q g b t) (hlegible : Legible L (L.dir cur) src n b) : Legible L (L.dir cur) src n t := by
  have hK := h.owned.owner_table h.cur_lt hp hp' hd.present
  rw [hd.table] at hK
  refine hlegible.congr hin.cr3 (entry_congr hin.mem hd.apart.symm (by decide)) fun j hj => ?_
  exact entry_congr hin.mem (h.owned.ne_fpt (Owned.table_ne_free hK)).symm hj

theorem allocPage_legible (h : Sound L cur s owner) (hwindow : Window s (L.dir cur)) (hva : Paged va) (flags : ℕ)
    (hlegible : Legible L (L.dir cur) src n s) :
    Ensures (Paging.allocPage va flags s) fun r => Legible L (L.dir cur) src n r.2 := by
  refine ((h.allocPage_outcome hwindow hva flags).mono fun r hr => ?_).ensures
  rcases hr with ⟨-, hsame, -⟩ | ⟨-, b, K, g, hmade, htabled, hin⟩
  · exact hlegible.congr hsame.cr3 (hsame.entry _ _) fun j _ => hsame.entry _ j
  · obtain ⟨owner', hb⟩ := hmade.sound
    exact hb.pageIn_legible htabled hva.pdIndex_pos hva.pdIndex_lt hin (hmade.legible hva.pdIndex_pos.ne' hlegible)

end Sound

end HekaOS.Paging

namespace HekaOS.TaskMemory
open MachineWord KernelMemory KernelTriples PageWalk WordBitmap PhysPageFrame AddressMap Vmalloc Paging Tasks
open Kmalloc (kcpoolVirtBase kcpoolVirtMax)
open PointerChain (chain_cons chain_nil)

variable {L : Layout} {m n : MemState} {b t u : PagingState} {dirs unused : Set ℕ} {k : ℕ → ℕ}
  {a cur fuel function j K pid size src : ℕ}

theorem InOrder.handed_legible (h : InOrder L cur dirs unused m) (hn : Handed size a m n) {x : ℕ}
    (hlegible : Legible L (L.dir cur) src x m.paging) : Legible L (L.dir cur) src x n.paging := by
  obtain ⟨owner, hs⟩ := h.sound
  have hpage := hn.page
  split at hpage
  · obtain ⟨⟨r, hok, -, hr⟩, -⟩ := hpage
    rw [hr]
    exact hs.allocPage_legible (hs.homed.window (h.window cur h.current)) h.pooled.vptr_page.paged _ hlegible r hok
  · rw [hpage.1]
    exact hlegible

/-- The kernel stack and the directory of the new task are elsewhere. -/
theorem Opened.legible (h : Opened L cur pid K k b u) (hb : ∃ owner, Sound L cur b owner)
    (hd : Tabled (L.dir cur) K kstackPdeIndex b) (hlegible : Legible L (L.dir cur) function size b) :
    Legible L (L.dir cur) function size u := by
  obtain ⟨owner, hb⟩ := hb
  have hK := Owned.owner_ne_free (tabled_owner hb hd)
  have hkept : ∀ f, f < reservedFrames → f ≠ K → f ≠ L.dir pid → ∀ j < 1024, u.entry f j = b.entry f j := by
    intro f hf hfK hfdir j hj
    have hin := hb.owned.reserved f hf
    exact h.stacked.touched.entry hin (Aside.out ⟨hin, hfdir, hfK⟩) hj
  refine hlegible.congr h.stacked.touched.cr3 ?_ fun j hj => ?_
  · exact hkept _ (dir_lt hb.cur_lt) hd.apart.symm (fun he => h.desk.other (dir_inj he).symm) 0 (by decide)
  · exact hkept _ L.fpt_low (hb.owned.ne_fpt hK).symm (dir_ne_fpt h.desk.lt).symm j hj

/-! ### A task that is granted -/

/-- Where there are ten frames, a user task is granted while the directory at boot is current, and finds there the page
tables of the chunk pool. -/
theorem InOrder.user_granted (h : InOrder L 0 dirs unused m) (hpid : pid ∈ unused) (hnew : pid ∉ dirs)
    (hsize : 0 < size) (hsize' : size ≤ pageSize) (hlegible : Legible L (L.dir 0) function size m.paging)
    (hspare : Spare m.paging.bitmap (j + 10)) (hzone : add32 m.pool.vptr Kmalloc.pageSize ≤ kcpoolVirtMax) :
    ∃ a n t, Handed taskSize a m n ∧ TaskMemory.spawn L fuel pid (.user function size) m = .ok (spawnAt a, n.withPaging t) ∧
      (Drained taskSize m.pool → Present (t.entry (L.dir pid) (pdIndex m.pool.vptr))) ∧ Spare t.bitmap j := by
  obtain ⟨⟨a, n⟩, hok⟩ := h.kmalloc_returns taskSize_served.1 taskSize_served.2 (fun _ => hspare.mono (by omega)) hzone
  obtain ⟨hpos, hhanded⟩ := kmalloc_handed h.pooled taskSize_served.1 taskSize_served.2 hok
  have hn : InOrder L 0 dirs unused n := h.kmalloc hhanded
  obtain ⟨hspare₁, hmapped⟩ := h.handed_spare (k := j + 8) hhanded hspare
  have hspawnable := hn.spawnable hpid hnew
  obtain ⟨owner, hs⟩ := hn.sound
  have hwindow := hs.homed.window (hn.window 0 hn.current)
  -- the kernel stack
  obtain ⟨t, ht, hstack⟩ := mapKstack_succeeds (k := j + 4) hs hwindow hspawnable.lt hspare₁ hspawnable.slots
  obtain ⟨b, K, hmade, htabled, k, hstacked⟩ : ∃ b K, TableMade L 0 kstackPdeIndex n.paging b ∧
      Tabled (L.dir 0) K kstackPdeIndex b ∧ ∃ k : ℕ → ℕ, Stacked L pid K ∅ k {k 1, k 0} b t := by
    obtain ⟨r, hr, hmapped⟩ := mapKstack_returns hs hwindow hspawnable.lt hspawnable.slots
    obtain rfl := Except.ok.inj (hr.symm.trans ht)
    rcases hmapped with ⟨hnone, -⟩ | ⟨b, K, hmade, htabled, ⟨hnone, -⟩ | ⟨-, hstacked⟩⟩
    · cases hnone
    · cases hnone
    · exact ⟨b, K, hmade, htabled, hstacked⟩
  obtain ⟨ownerb, hb⟩ := hmade.sound
  have hopened := hstacked.procInit hb htabled hstack.sound hspawnable.lt hspawnable.ne_zero hspawnable.other
  -- the user half
  have hlegible' : Legible L (L.dir 0) function size (pagingProcInit L pid t) :=
    hopened.legible ⟨ownerb, hb⟩ htabled (hmade.legible (by decide) (h.handed_legible hhanded hlegible))
  have hnone : Legible L (L.dir 0) 0 0 (pagingProcInit L pid t) :=
    ⟨hlegible'.cr3, .inl rfl, hlegible'.pde, hlegible'.leads, hlegible'.ptes⟩
  have hload : Meets _ (pagingLoadUserImage L pid function size (pagingProcInit L pid t)) _ :=
    hopened.desk.loadUserImage hopened.empty hsize hsize'
  obtain ⟨⟨ok, u⟩, hu, hadvance, -, T, hloaded, hfull, hdone⟩ := hload.returns ⟨hlegible', hnone⟩
  have hcount := hloaded.touched.freeCount
  rw [(pagingProcInit_within L pid t).bitmap] at hcount
  dsimp only at hcount
  have hfree := hstack.spare.le_physFreeCount
  cases ok with
  | false =>
    obtain ⟨hfull, hcard⟩ := hfull rfl
    have hzero : physFreeCount u.bitmap = 0 := full_iff.mp hfull
    omega
  | true =>
    have hcard := hdone rfl
    refine ⟨a, n, u, hhanded, ?_, fun hdrained => ?_, spare_iff.mpr ?_⟩
    · have hfurnished : TaskMemory.furnish L pid (.user function size) n.paging = .ok ((kstackPages, true), u) := by
        unfold TaskMemory.furnish
        rw [ht, ok_bind]
        change (pagingLoadUserImage L pid function size (pagingProcInit L pid t) >>= _) = _
        rw [hu]
        rfl
      unfold TaskMemory.spawn
      rw [hok, ok_bind]
      dsimp only
      rw [if_neg hpos, hfurnished]
      rfl
    · obtain ⟨hindex, -⟩ := poolPage_index h.pooled.vptr_page
      have hlow := hindex.low
      have hhigh := hindex.high
      obtain ⟨hpde, -⟩ := hstack.others _ _ (by omega) hhigh hindex.entry (hmapped hdrained)
      refine hadvance.upper pid hspawnable.lt hspawnable.lt.ne _ hlow (by omega) ?_
      rw [pagingProcInit_entry hspawnable.lt hspawnable.ne_zero (by omega), if_pos rfl, procEntry, if_neg (by omega),
        if_pos (.inl hlow)]
      exact hpde
    · omega

/-! ### On the CPU -/

/-- The first user task is created. -/
def startUser : KOp := .execInitFn (spawnAt firstStruct) 64

/-- The boot task stops, and the first user task comes on the CPU. -/
def userTasks : KState := ((Tasks.bootState.after startUser).after (.send initTask sigstop)).after (.tick 16)

theorem bootSystem_legible : Legible sampleLayout (sampleLayout.dir 0) 0x00100000 64 bootSystem.mem.paging := by
  have hfirst : Points (Paging.bootState.entry (sampleLayout.dir 0) 0) sampleLayout.fptFrame := by
    rw [bootState_entry (by decide)]
    exact points_fpt sampleLayout
  refine ⟨bootState_sound.cr3, .inr (by decide), hfirst.present, hfirst.frame, fun j hj => ?_⟩
  have hidentity : Paging.bootState.entry sampleLayout.fptFrame j = j * 4096 ||| (pagePresent ||| pageRw) := by
    rw [Paging.bootState, pagingInit_entry hj, bootEntry, if_neg (by decide), if_pos rfl]
  change Present (Paging.bootState.entry sampleLayout.fptFrame j)
  rw [hidentity]
  exact (points_frame hj).present

/-- With a page table for the kernel stacks and one for the chunk pool in its directory. -/
theorem userTasks_reachable : ∃ m, SystemReachable sampleLayout ⟨userTasks, m⟩ ∧
    m.pool.vptr = kcpoolVirtBase + Kmalloc.pageSize ∧ Present (m.paging.entry (sampleLayout.dir 1) kstackPdeIndex) ∧
    Present (m.paging.entry (sampleLayout.dir 1) (pdIndex m.pool.vptr)) ∧ 15350 ≤ physFreeCount m.paging.bitmap := by
  have hboot : SystemReachable sampleLayout bootSystem := .start bootSystem_booted
  have hmem : InOrder sampleLayout 0 (dirs Tasks.bootState) (unused Tasks.bootState) bootSystem.mem :=
    (Backed.boot bootSystem_booted).mem
  have hpid : 1 ∈ unused Tasks.bootState := ⟨by decide, .inr ⟨rfl, rfl⟩⟩
  have hnew : 1 ∉ dirs Tasks.bootState :=
    unused_not_dir (Roster.boot_state bootSystem_booted.tasks) (Placed.boot bootSystem_booted.tasks) hpid
  have hdrained : Drained taskSize bootSystem.mem.pool := rfl
  obtain ⟨a, n, t, hhanded, hspawn, hstruct, hspare⟩ := @InOrder.user_granted _ _ _ _ 0 0x00100000 15350 _ 64 hmem hpid hnew
    (by decide) (by decide) bootSystem_legible bootState_spare (by decide)
  have hpage := hhanded.page
  rw [if_pos hdrained] at hpage
  obtain ⟨-, rfl, -, hvptr, -⟩ := hpage
  have hop : KStep startUser Tasks.bootState (Tasks.bootState.after startUser) :=
    kstep_after ⟨spawnAt_fresh (by decide), rfl⟩ rfl
  have hrequest : asks 0x00100000 bootSystem.tasks startUser =
      some (spawnAt firstStruct, some (1, .user 0x00100000 64)) := rfl
  have hcpu : startUser.OnCpu bootSystem.tasks := trivial
  have hstep : SystemStep sampleLayout bootSystem _ := .operation hcpu hop (.spawn 0 0x00100000 hrequest hspawn)
  have hsame : (Tasks.bootState.after startUser).currentTask = bootSystem.tasks.currentTask := by decide +kernel
  rw [MemState.reload, if_pos hsame] at hstep
  -- the boot task stops
  have hstarted : Reaches sampleLayout (n.withPaging t) (Tasks.bootState.after startUser) := ⟨_, .next hboot hstep⟩
  have hstop : KOp.Allowed (Tasks.bootState.after startUser) (.send initTask sigstop) :=
    ⟨[firstStruct, 0], by simp only [chain_cons, chain_nil]; decide +kernel, by decide⟩
  have hstopped := @Reaches.after _ _ _ (.send initTask sigstop) hstarted trivial hstop (by decide +kernel) rfl fun _ => id
  obtain ⟨r, hreachable⟩ := @Reaches.after _ _ _ (.tick 16) hstopped trivial trivial (by decide +kernel) rfl fun _ => id
  have hcurrent : userTasks.current.mm.pgdir = 1 := by decide +kernel
  change SystemReachable sampleLayout ⟨userTasks, _⟩ at hreachable
  have hbacked := hreachable.backed.mem
  dsimp only at hbacked
  rw [hcurrent] at hbacked
  have hindex : pdIndex (n.withPaging t).pool.vptr = pdIndex bootSystem.mem.pool.vptr := by
    change pdIndex n.pool.vptr = _
    rw [hvptr]
    decide
  refine ⟨_, hreachable, hvptr, (hbacked.housed 1 hbacked.current (by decide)).1, ?_, spare_iff.mp hspare⟩
  change Present (t.entry _ (pdIndex (n.withPaging t).pool.vptr))
  rw [hindex]
  exact hstruct hdrained

end HekaOS.TaskMemory
