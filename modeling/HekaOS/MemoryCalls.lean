import HekaOS.PoolPages

/-!
# What the calls on the memory keep

The chunk pool is in order, the ledger covers the page tables, the directories of tasks are open to the
kernel, and no directory maps a page of the pool that is still to come or a kernel stack that is not in use.
The calls of the creators and of `task_reap` keep this, whether they go through or not.
-/

namespace HekaOS.TaskMemory
open MachineWord KernelMemory KernelTriples ByteMemory PageWalk WordBitmap PhysPageFrame AddressMap Vmalloc
open Paging
open Kmalloc (pageOf)
open Tasks (SpawnEnv Task maxProc pageSize kstackPages kstackVa)

variable {L : Layout} {m n : MemState} {t : PagingState} {A : Set (ℕ × ℕ)} {dirs dirs' unused unused' : Set ℕ}
  {kind : SpawnKind} {a b child cur fuel i j p pid size va v : ℕ}

/-- Between two calls: `dirs` are the directories of tasks, and the kernel stacks of the pids `unused` are mapped
nowhere. -/
structure InOrder (L : Layout) (cur : ℕ) (dirs unused : Set ℕ) (m : MemState) : Prop where
  pooled : Pooled m
  sound : ∃ owner, Sound L cur m.paging owner
  current : cur ∈ dirs
  zero : 0 ∈ dirs
  lt : ∀ pid ∈ dirs, pid < maxProc
  window : ∀ pid ∈ dirs, Present (m.paging.entry (L.dir pid) 1023)
  housed : ∀ pid ∈ dirs, pid ≠ 0 → Present (m.paging.entry (L.dir pid) kstackPdeIndex) ∧
    Present (m.paging.entry (L.dir 0) kstackPdeIndex)
  zone : ∀ va, PoolPage va → m.pool.vptr ≤ va → ¬Somewhere L m.paging (pdIndex va) (ptIndex va)
  unusedLt : ∀ pid ∈ unused, pid < maxProc ∧ pid ≠ 0
  slots : ∀ pid ∈ unused, ∀ p < kstackPages, ¬Somewhere L m.paging kstackPdeIndex (2 * pid + p)

theorem poolPage_index (h : PoolPage va) : KernelIndex (pdIndex va) (ptIndex va) ∧ pdIndex va ≠ kstackPdeIndex := by
  have hindex : kstackPdeIndex = 956 := by decide
  have habove := h.above
  have hbelow := h.below
  have hpd : 768 ≤ pdIndex va ∧ pdIndex va < 956 := by
    simp only [pdIndex, Kmalloc.kcpoolVirtBase, Kmalloc.kcpoolVirtMax] at *
    omega
  refine ⟨⟨hpd.1, by omega, ptIndex_lt va, fun hc => ?_⟩, by omega⟩
  have := (scratch_iff.mp hc).1
  omega

theorem poolPage_inj (ha : PoolPage a) (hb : PoolPage b) (h : (pdIndex a, ptIndex a) = (pdIndex b, ptIndex b)) : a = b := by
  obtain ⟨x, rfl⟩ := ha.aligned
  obtain ⟨y, rfl⟩ := hb.aligned
  obtain ⟨hpd, hpt⟩ := Prod.mk.inj h
  simp only [pdIndex, ptIndex, Kmalloc.pageSize] at *
  omega

theorem slot_index (hpid : pid < maxProc) (hp : p < kstackPages) : KernelIndex kstackPdeIndex (2 * pid + p) := by
  refine ⟨by decide, by decide, ?_, fun hc => ?_⟩
  · simp only [maxProc, kstackPages] at *
    omega
  · have := (scratch_iff.mp hc).2
    simp only [maxProc, kstackPages] at *
    omega

namespace InOrder

theorem cur_lt (h : InOrder L cur dirs unused m) : cur < maxProc := h.lt cur h.current

/-- Fewer directories, and fewer pids that are not in use. -/
theorem mono (h : InOrder L cur dirs unused m) (hdirs : dirs' ⊆ dirs) (hcur : cur ∈ dirs') (hzero : 0 ∈ dirs')
    (hunused : unused' ⊆ unused) : InOrder L cur dirs' unused' m :=
  ⟨h.pooled, h.sound, hcur, hzero, fun pid hpid => h.lt pid (hdirs hpid), fun pid hpid => h.window pid (hdirs hpid),
    fun pid hpid => h.housed pid (hdirs hpid), h.zone, fun pid hpid => h.unusedLt pid (hunused hpid),
    fun pid hpid => h.slots pid (hunused hpid)⟩

/-- A call that maps the pages `A` of the kernel half, none of them in the zones. -/
theorem advance (h : InOrder L cur dirs unused m) (ht : Advance L cur child A m.paging n.paging) (hpooled : Pooled n)
    (hvptr : m.pool.vptr ≤ n.pool.vptr) (hchild : child ∉ dirs) (hunused : unused' ⊆ unused)
    (hzone : ∀ va, PoolPage va → n.pool.vptr ≤ va → (pdIndex va, ptIndex va) ∉ A)
    (hslots : ∀ pid ∈ unused', ∀ p < kstackPages, (kstackPdeIndex, 2 * pid + p) ∉ A) : InOrder L cur dirs unused' n := by
  have hne : ∀ pid ∈ dirs, pid ≠ child := fun pid hpid he => hchild (he ▸ hpid)
  refine ⟨hpooled, ht.sound, h.current, h.zero, h.lt, fun pid hpid => ?_, fun pid hpid hpos => ⟨?_, ?_⟩,
    fun va hva hle hmaps => ?_, fun pid hpid => h.unusedLt pid (hunused hpid), fun pid hpid p hp hmaps => ?_⟩
  · exact ht.upper pid (h.lt pid hpid) (hne pid hpid) _ (by decide) (by decide) (h.window pid hpid)
  · exact ht.upper pid (h.lt pid hpid) (hne pid hpid) _ (by decide) (by decide) (h.housed pid hpid hpos).1
  · exact ht.upper 0 (by decide) (hne 0 h.zero) _ (by decide) (by decide) (h.housed pid hpid hpos).2
  · rcases ht.adds _ _ (poolPage_index hva).1 hmaps with hold | hA
    · exact h.zone va hva (hvptr.trans hle) hold
    · exact hzone va hva hle hA
  · rcases ht.adds _ _ (slot_index (h.unusedLt pid (hunused hpid)).1 hp) hmaps with hold | hA
    · exact h.slots pid (hunused hpid) p hp hold
    · exact hslots pid hpid p hp hA

/-- A call that maps nothing. -/
theorem quiet (h : InOrder L cur dirs unused m) (ht : Advance L cur maxProc ∅ m.paging n.paging) (hpooled : Pooled n)
    (hvptr : n.pool.vptr = m.pool.vptr) : InOrder L cur dirs unused n :=
  h.advance ht hpooled hvptr.ge (fun hc => absurd (h.lt _ hc) (Nat.lt_irrefl _)) subset_rfl
    (fun _ _ _ => Set.notMem_empty _) fun _ _ _ _ => Set.notMem_empty _

/-- Another directory becomes the current one. -/
theorem switch (h : InOrder L cur dirs unused m) (hpid : pid ∈ dirs) :
    InOrder L pid dirs unused (m.withPaging { m.paging with cr3 := L.pageDirectory pid }) := by
  obtain ⟨owner, hs⟩ := h.sound
  have hsound : Sound L pid ({ m.paging with cr3 := L.pageDirectory pid } : PagingState) owner :=
    ⟨hs.owned, h.lt pid hpid, rfl⟩
  exact ⟨h.pooled, ⟨owner, hsound⟩, hpid, h.zero, h.lt, h.window, h.housed, h.zone, h.unusedLt, h.slots⟩

/-! ### The chunk pool -/

theorem kmalloc (h : InOrder L cur dirs unused m) (hn : Handed size a m n) : InOrder L cur dirs unused n := by
  obtain ⟨owner, hs⟩ := h.sound
  have hpage := hn.page
  split at hpage
  · obtain ⟨⟨r, hok, -, hr⟩, -, -, hvptr, -⟩ := hpage
    have hadvance : Advance L cur maxProc _ m.paging r.2 := hs.allocPage_advance maxProc h.pooled.vptr_page.paged _ r hok
    rw [← hr] at hadvance
    refine h.advance hadvance hn.pooled (by omega) (fun hc => absurd (h.lt _ hc) (Nat.lt_irrefl _)) subset_rfl
      (fun va hva hle hin => ?_) fun pid hpid p hp hin => ?_
    · have heq := poolPage_inj hva h.pooled.vptr_page hin
      rw [hvptr, heq] at hle
      simp only [Kmalloc.pageSize] at hle
      omega
    · exact (poolPage_index h.pooled.vptr_page).2 (Prod.mk.inj hin).1.symm
  · obtain ⟨hpaging, hvptr, -⟩ := hpage
    refine h.quiet ?_ hn.pooled hvptr
    rw [hpaging]
    exact hs.advance_refl

/-- The page of an object can be given back. -/
theorem freePage_object (h : InOrder L cur dirs unused m) (ha : a ∈ m.objects) : ∃ t, freePage (pageOf a) m.paging = .ok t := by
  obtain ⟨owner, hs⟩ := h.sound
  have hpage := (h.pooled.mapped_page (h.pooled.object_page ha).1).1
  exact (hs.homed.window (h.window cur h.current)).freePage_returns hpage.paged

theorem kfree (h : InOrder L cur dirs unused m) (ha : a ∈ m.objects) (hn : Returned a m n) : InOrder L cur dirs unused n := by
  obtain ⟨owner, hs⟩ := h.sound
  have hpage := (h.pooled.mapped_page (h.pooled.object_page ha).1).1
  refine h.quiet ?_ hn.pooled hn.vptr
  have hgiven := hn.page
  split at hgiven
  · rw [hgiven.1]
    exact hs.advance_refl
  · exact hs.freePage_advance maxProc hpage.paged hpage.not_scratch _ hgiven.1

end InOrder

/-! ### New tasks -/

theorem mapKstack_gives_up {l : List ℕ} {base : ℕ} {s : PagingState} :
    Ensures (mapKstack base l s) fun r => ∀ p, r.1 = some p → p ∈ l := by
  induction l generalizing s with
  | nil => exact ensures_ok nofun
  | cons p l ih =>
    rw [mapKstack]
    refine Ensures.bind (Q := fun _ => True) (fun _ _ => trivial) fun r _ => ?_
    split
    · refine Ensures.bind (Q := fun _ => True) (fun _ _ => trivial) fun s _ => ensures_ok fun q hq => ?_
      rw [← Option.some.inj hq]
      exact List.mem_cons_self
    · exact ih.mono fun r hr q hq => List.mem_cons_of_mem p (hr q hq)

/-- A kernel task can only be refused for want of its stack. -/
theorem furnish_kthread {s : PagingState} :
    Ensures (furnish L pid .kthread s) fun r => r.1.2 = false → r.1.1 < kstackPages := by
  unfold furnish
  refine mapKstack_gives_up.bind fun r hr => ?_
  split
  · rename_i q hq
    exact ensures_ok fun _ => List.mem_range.mp (hr q hq)
  · exact ensures_ok nofun

/-- A creator that fails maps nothing. -/
theorem Spawnable.furnish_adds {s : PagingState} (h : Spawnable L cur pid s) (hsized : kind.Sized) :
    Ensures (furnish L pid kind s) fun r => r.1.2 = false → Adds L ∅ s r.2 := by
  refine (h.furnish_fails hsized).mono fun r hr hfail => ?_
  rcases hr hfail with ⟨hsame, -⟩ | ⟨b, K, E, T, hundone⟩
  · exact Sound.adds_same hsame.mem
  · obtain ⟨owner, hb⟩ := hundone.made.sound
    exact hundone.made.adds.then_none
      (hb.adds_restored (tabled_owner hb hundone.tabled) h.lt (hundone.restored.mono hundone.scratch))

namespace InOrder

theorem spawnable (h : InOrder L cur dirs unused m) (hpid : pid ∈ unused) (hnew : pid ∉ dirs) :
    Spawnable L cur pid m.paging := by
  refine ⟨h.sound, h.window cur h.current, (h.unusedLt pid hpid).1, (h.unusedLt pid hpid).2, ?_, fun p hp hmaps => ?_⟩
  · rintro rfl
    exact hnew h.current
  · exact h.slots pid hpid p hp ⟨cur, h.cur_lt, hmaps⟩

/-- The kernel stack and the directory of a new task. -/
theorem furnish (h : InOrder L cur dirs unused m) (hpid : pid ∈ unused) (hnew : pid ∉ dirs) (hsized : kind.Sized) :
    Ensures (TaskMemory.furnish L pid kind m.paging) fun r =>
      if r.1.2 = true then InOrder L cur (insert pid dirs) (unused \ {pid}) (m.withPaging r.2)
      else InOrder L cur dirs unused (m.withPaging r.2) ∧ (kind = .kthread → r.1.1 < kstackPages) := by
  have hspawnable := h.spawnable hpid hnew
  have hzero : cur ≠ 0 → Present (m.paging.entry (L.dir 0) kstackPdeIndex) := fun hcur => (h.housed cur h.current hcur).2
  intro r hok
  obtain ⟨hadvance, hhoused⟩ := hspawnable.furnish_advance hsized hzero r hok
  -- the pages of its own stack are no others
  have hapart : ∀ va, PoolPage va → (pdIndex va, ptIndex va) ∉ TaskMemory.slots pid := by
    rintro va hva ⟨p, -, hin⟩
    exact (poolPage_index hva).2 (Prod.mk.inj hin).1
  have hothers : ∀ pid' ∈ unused \ {pid}, ∀ p < kstackPages, (kstackPdeIndex, 2 * pid' + p) ∉ TaskMemory.slots pid := by
    rintro pid' ⟨-, hne⟩ p hp ⟨p', hp', hin⟩
    refine hne ?_
    have := (Prod.mk.inj hin).2
    simp only [kstackPages] at *
    rw [Set.mem_singleton_iff]
    omega
  split
  · rename_i hdone
    obtain ⟨hown, hkstack⟩ := hhoused hdone
    have hnext : InOrder L cur dirs (unused \ {pid}) (m.withPaging r.2) :=
      h.advance hadvance h.pooled le_rfl hnew Set.sdiff_subset (fun va hva _ => hapart va hva) hothers
    refine ⟨hnext.pooled, hnext.sound, .inr hnext.current, .inr hnext.zero, ?_, ?_, ?_, hnext.zone, hnext.unusedLt, hnext.slots⟩
    · rintro pid' (rfl | hin)
      · exact (h.unusedLt pid' hpid).1
      · exact hnext.lt pid' hin
    · rintro pid' (rfl | hin)
      · exact hown.window
      · exact hnext.window pid' hin
    · rintro pid' (rfl | hin) hpos
      · exact ⟨hown.kstack, hkstack⟩
      · exact hnext.housed pid' hin hpos
  · rename_i hfail
    have hfail : r.1.2 = false := eq_false_of_ne_true hfail
    have hadds : Adds L ∅ m.paging r.2 := hspawnable.furnish_adds hsized r hok hfail
    refine ⟨h.advance ⟨hadvance.sound, hadds, hadvance.upper⟩ h.pooled le_rfl hnew subset_rfl
      (fun _ _ _ => Set.notMem_empty _) fun _ _ _ _ => Set.notMem_empty _, ?_⟩
    rintro rfl
    exact furnish_kthread r hok hfail

end InOrder

/-- What the memory answers to a creator, and what it is like then. -/
inductive Spawned (L : Layout) (cur pid : ℕ) (kind : SpawnKind) (dirs unused : Set ℕ) (m : MemState) : SpawnEnv × MemState → Prop
  | granted (a : ℕ) (n : MemState) (habove : Kmalloc.kcpoolVirtBase < a) (hfresh : a ∉ m.objects) (hobjects : n.objects = insert a m.objects)
      (h : InOrder L cur (insert pid dirs) (unused \ {pid}) n) : Spawned L cur pid kind dirs unused m (⟨some a, kstackPages, true⟩, n)
  | refused (a pages : ℕ) (n : MemState) (habove : Kmalloc.kcpoolVirtBase < a) (hfresh : a ∉ m.objects) (hpages : kind = .kthread → pages < kstackPages)
      (hobjects : n.objects = m.objects) (h : InOrder L cur dirs unused n) :
      Spawned L cur pid kind dirs unused m (⟨some a, pages, false⟩, n)

theorem taskSize_served : 1 ≤ taskSize ∧ taskSize ≤ 256 := by decide

/-- A creator that has a pid is granted all it asks for, or what it was granted is taken back. -/
theorem InOrder.spawn (h : InOrder L cur dirs unused m) (hpid : pid ∈ unused) (hnew : pid ∉ dirs) (hsized : kind.Sized) :
    Ensures (TaskMemory.spawn L fuel pid kind m) (Spawned L cur pid kind dirs unused m) := by
  unfold TaskMemory.spawn
  refine Ensures.bind (Q := fun t => t.1 ≠ 0 ∧ Handed taskSize t.1 m t.2)
    (fun t ht => kmalloc_handed h.pooled taskSize_served.1 taskSize_served.2 ht) fun t ht => ?_
  obtain ⟨a, n⟩ := t
  obtain ⟨hpos, hhanded⟩ := ht
  rw [if_neg hpos]
  have hn : InOrder L cur dirs unused n := h.kmalloc hhanded
  have ha : a ∈ n.objects := by
    rw [hhanded.objects]
    exact Finset.mem_insert_self a _
  have habove := (hn.pooled.object_page ha).2
  refine (hn.furnish hpid hnew hsized).bind fun r hr => ?_
  obtain ⟨⟨pages, ok⟩, s⟩ := r
  cases ok with
  | true => exact ensures_ok (.granted a _ habove hhanded.fresh hhanded.objects hr)
  | false =>
    obtain ⟨hback, hpages⟩ := hr
    have ha : a ∈ (n.withPaging s).objects := ha
    obtain ⟨n', hreturned, hunique, -⟩ := kfree_returned hback.pooled ha (hback.freePage_object ha)
    have hsame : n'.objects = m.objects := by
      rw [hreturned.objects]
      change n.objects.erase a = _
      rw [hhanded.objects, Finset.erase_insert hhanded.fresh]
    refine Ensures.bind (Q := fun w => w = n') (fun w hok => hunique fuel w hok) fun w hw => ?_
    rw [hw]
    exact ensures_ok (.refused a pages n' habove hhanded.fresh hpages hsame (hback.kfree ha hreturned))

/-! ### Dead tasks and stores -/

namespace InOrder

/-- While another task is current, the directory of a task can be worked on. -/
theorem desk (h : InOrder L cur dirs unused m) (hpid : pid ∈ dirs) (hpos : pid ≠ 0) (hother : pid ≠ cur) :
    Desk L cur pid (m.paging.entry (L.dir cur) kstackPdeIndex / 4096) m.paging := by
  refine ⟨h.sound, h.window cur h.current, ?_, rfl, h.lt pid hpid, hother⟩
  by_cases hcur : cur = 0
  · rw [hcur]
    exact (h.housed pid hpid hpos).2
  · exact (h.housed cur h.current hcur).1

/-- `task_reap` gives back the memory of a task that is not the current one. -/
theorem release {x : Task} (h : InOrder L cur dirs unused m) (ha : a ∈ m.objects) (hpid : x.pid ∈ dirs) (hpos : x.pid ≠ 0)
    (hother : x.pid ≠ cur) (hkstack : x.kstack = kstackVa x.pid) :
    Ensures (releaseMemory L fuel a x m) fun n => n.objects = m.objects.erase a ∧ InOrder L cur dirs unused n := by
  have hquiet : ∀ {n : MemState} {t : PagingState}, InOrder L cur dirs unused n → Advance L cur maxProc ∅ n.paging t →
      InOrder L cur dirs unused (n.withPaging t) := fun hn ht => hn.quiet ht hn.pooled rfl
  -- behind the pages of the stack
  have hrest : ∀ s, InOrder L cur dirs unused (m.withPaging s) → Ensures (pagingProcTeardown L x.pid s >>= fun s =>
      TaskMemory.kfree fuel a (m.withPaging s)) fun n => n.objects = m.objects.erase a ∧ InOrder L cur dirs unused n := by
    intro s hs
    have hteardown : Meets True (pagingProcTeardown L x.pid s) _ := (hs.desk hpid hpos hother).procTeardown.meets
    refine hteardown.1.bind fun t ht => ?_
    have ht : InOrder L cur dirs unused (m.withPaging t) := hquiet (n := m.withPaging s) hs ht.1
    have ha' : a ∈ (m.withPaging t).objects := ha
    obtain ⟨n, hreturned, hunique, -⟩ := kfree_returned ht.pooled ha' (ht.freePage_object ha')
    intro w hw
    rw [hunique fuel w hw]
    exact ⟨hreturned.objects, ht.kfree ha' hreturned⟩
  obtain ⟨owner, hsound⟩ := h.sound
  have hstack := freeKstack_advance hsound maxProc (h.lt _ hpid) (le_refl kstackPages)
  unfold releaseMemory
  split
  · rw [hkstack]
    exact hstack.bind fun s hs => hrest s (hquiet h hs.1)
  · exact hrest m.paging h

end InOrder

/-- An address that is stored to outside `paging.c`: neither an identity-mapped one nor one of the windows on the
page tables. -/
structure Plain (va : ℕ) : Prop where
  above : 0x00400000 ≤ va
  below : va < 0xFFC00000
  scratch : ¬Scratch (pdIndex va) (ptIndex va)

theorem store_advance {s : PagingState} {owner : ℕ → Owner} (h : Sound L cur s owner) (hva : Plain va) :
    Ensures (s.writeByte va v) (Advance L cur maxProc ∅ s) := by
  intro t ht
  obtain ⟨addr, haddr, ht⟩ := bind_eq_ok.mp ht
  obtain rfl := Except.ok.inj ht
  have hwalk : walk s.mem (L.dir cur * 4096) va = some addr := by
    unfold PagingState.translate at haddr
    rw [h.cr3] at haddr
    split at haddr
    · rename_i hw
      rw [← Except.ok.inj haddr]
      exact hw
    · cases haddr
  obtain ⟨⟨hpde, hpte⟩, rfl⟩ := walk_eq_some.mp hwalk
  have habove := hva.above
  have hbelow := hva.below
  have hpd : 0 < pdIndex va ∧ pdIndex va < 1023 := by
    unfold pdIndex
    omega
  -- the page belongs to an entry of a table, so it holds no table itself
  have htable := h.owned.owner_table h.cur_lt hpd.1 hpd.2 hpde
  have hpage := h.owned.pte _ _ _ htable _ (ptIndex_lt va) hva.scratch hpte
  generalize hg : pteOf s (L.dir cur) va / 4096 = g
  have hpage : owner g = .page (s.entry (L.dir cur) (pdIndex va) / 4096) (ptIndex va) := hg ▸ hpage
  have hnot : ∀ i pid, owner g ≠ .table i pid := by
    intro i pid he
    rw [hpage] at he
    cases he
  have hfree := Owned.page_ne_free hpage
  have hw : Within g s { s with mem := store8 s.mem (g * 4096 + va % 4096) v } := within_store8 (Nat.mod_lt va (by decide))
  have howned := h.owned.within hw (h.owned.used g hfree).1 hnot
  have hdir : ∀ pid < maxProc, L.dir pid ≠ g := fun pid hpid => (h.owned.ne_dir hfree hpid).symm
  have hsound : Sound L cur { s with mem := store8 s.mem (g * 4096 + va % 4096) v } owner := ⟨howned, h.cur_lt, h.cr3⟩
  exact .of_same hsound (h.adds_within hw hdir fun i _ => hnot i _) fun pid hpid _ i hi _ => hw.entry (hdir pid hpid) hi

namespace InOrder

theorem store (h : InOrder L cur dirs unused m) (hva : Plain va) :
    Ensures (m.paging.writeByte va v) fun t => InOrder L cur dirs unused (m.withPaging t) := by
  obtain ⟨owner, hs⟩ := h.sound
  exact (store_advance hs hva).mono fun t ht => h.quiet ht h.pooled rfl

end InOrder

/-- A page that others than the chunk pool and the creators map and unmap. -/
structure Elsewhere (va : ℕ) : Prop where
  paged : Paged va
  pool : ¬PoolPage va
  kstack : pdIndex va ≠ kstackPdeIndex

namespace InOrder

theorem allocPage (h : InOrder L cur dirs unused m) (hva : Elsewhere va) (flags : ℕ) :
    Ensures (Paging.allocPage va flags m.paging) fun r => InOrder L cur dirs unused (m.withPaging r.2) := by
  obtain ⟨owner, hs⟩ := h.sound
  refine (hs.allocPage_advance maxProc hva.paged flags).mono fun r hr => ?_
  refine h.advance hr h.pooled le_rfl (fun hc => absurd (h.lt _ hc) (Nat.lt_irrefl _)) subset_rfl (fun b hb _ hin => ?_)
    fun pid hpid p hp hin => hva.kstack (Prod.mk.inj hin).1.symm
  refine hva.pool ?_
  obtain ⟨hpd, hpt⟩ := Prod.mk.inj (Set.mem_singleton_iff.mp hin)
  have haligned := hva.paged.aligned
  obtain ⟨x, rfl⟩ := hb.aligned
  have heq : Kmalloc.pageSize * x = va := by
    simp only [pdIndex, ptIndex, Kmalloc.pageSize] at *
    omega
  rw [← heq]
  exact hb

theorem freePage (h : InOrder L cur dirs unused m) (hva : Elsewhere va) :
    Ensures (Paging.freePage va m.paging) fun t => InOrder L cur dirs unused (m.withPaging t) := by
  obtain ⟨owner, hs⟩ := h.sound
  have hscratch : ¬ScratchVa va := by
    intro hc
    have hindex := (scratch_iff.mp ⟨va, hc, rfl, rfl⟩).1
    exact hva.kstack hindex
  exact (hs.freePage_advance maxProc hva.paged hscratch).mono fun t ht => h.quiet ht h.pooled rfl

end InOrder

end HekaOS.TaskMemory
