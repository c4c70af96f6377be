import HekaOS.FrameExclusivity

/-!
# One kernel half for all tasks

The directories of live tasks translate the kernel half alike as long as their entries there are
the same. A new directory takes its entries from `page_directories[0]`; a page table that
`map_page` creates later is entered in the current directory only.
-/

namespace HekaOS.Paging
open MachineWord KernelMemory KernelTriples ByteMemory PageWalk WordBitmap PhysPageFrame AddressMap
open TransitionSystem
open Tasks (maxProc pageSize kernelVirtBase)

variable {L : Layout} {s : PagingState} {owner : ℕ → Owner} {A B cur child i n pid va flags : ℕ}

/-- The tables, and the tasks that are alive; `init_task`, with pid 0, always is. -/
structure TaskSpaces where
  paging : PagingState
  live : Finset ℕ

variable {k k' : TaskSpaces}

inductive SpaceOp where
  | allocPage (va flags : ℕ)
  | freePage (va : ℕ)
  | procSwitch (pid : ℕ)
  | procInit (pid : ℕ)
  | forkCopy (childPid : ℕ)
  | exit (pid : ℕ)

/-- A page of the kernel half that the allocators may ask for. -/
structure KernelPage (va : ℕ) : Prop where
  aligned : va % 4096 = 0
  above : kernelVirtBase ≤ va
  below : va < 0xFFC00000
  scratch : ¬ScratchVa va

theorem KernelPage.paged (h : KernelPage va) : Paged va :=
  ⟨h.aligned, le_trans (by decide) h.above, h.below⟩

/-- The calls that return, with the tasks that are alive after them. -/
inductive SpaceStep (L : Layout) (k : TaskSpaces) : SpaceOp → TaskSpaces → Prop where
  | allocPage {va flags : ℕ} {r : ℕ × PagingState} (hva : KernelPage va)
      (hok : allocPage va flags k.paging = .ok r) : SpaceStep L k (.allocPage va flags) ⟨r.2, k.live⟩
  | freePage {va : ℕ} {t : PagingState} (hva : KernelPage va) (hok : freePage va k.paging = .ok t) :
      SpaceStep L k (.freePage va) ⟨t, k.live⟩
  | procSwitch {pid : ℕ} (hpid : pid ∈ k.live) :
      SpaceStep L k (.procSwitch pid) ⟨pagingProcSwitch L pid k.paging, k.live⟩
  | procInit {pid : ℕ} (hpid : pid < maxProc) (hne : pid ≠ 0) (hother : k.paging.cr3 ≠ L.pageDirectory pid) :
      SpaceStep L k (.procInit pid) ⟨pagingProcInit L pid k.paging, insert pid k.live⟩
  | forkCopy {childPid : ℕ} {r : Bool × PagingState} (h : Foreign L childPid k.paging)
      (hok : pagingForkCopy L childPid k.paging = .ok r) : SpaceStep L k (.forkCopy childPid) ⟨r.2, k.live⟩
  | exit {pid : ℕ} (hne : pid ≠ 0) (hother : k.paging.cr3 ≠ L.pageDirectory pid) :
      SpaceStep L k (.exit pid) ⟨k.paging, k.live.erase pid⟩

/-- A page of the kernel half is asked for where the current directory has a page table, or no frame
is left for a new one, or no other directory could miss it. -/
def SharesTables (k : TaskSpaces) : SpaceOp → Prop
  | .allocPage va _ => Present (load32 k.paging.mem (k.paging.cr3 + 4 * pdIndex va)) ∨
      (physAllocFrame (physAllocFrame k.paging.bitmap).2).1 = 0 ∨ k.live = {0}
  | _ => True

def SpacesBooted (L : Layout) (k : TaskSpaces) : Prop := Booted L k.paging ∧ k.live = {0}

/-- The states after calls that all meet a condition. -/
def SpacesReachable (L : Layout) (condition : TaskSpaces → SpaceOp → Prop) (k : TaskSpaces) : Prop :=
  Reachable (SpacesBooted L) (fun k k' => ∃ op, SpaceStep L k op k' ∧ condition k op) k

theorem SpacesReachable.allocPage {condition : TaskSpaces → SpaceOp → Prop} {t u : PagingState} {live : Finset ℕ} {a : ℕ}
    (h : SpacesReachable L condition ⟨t, live⟩) (hva : KernelPage va) (hok : Paging.allocPage va flags t = .ok (a, u))
    (hcondition : condition ⟨t, live⟩ (.allocPage va flags)) : SpacesReachable L condition ⟨u, live⟩ :=
  .next h ⟨.allocPage va flags, .allocPage (r := (a, u)) hva hok, hcondition⟩

/-- Any two live tasks see the same kernel half. -/
def KernelCoherent (L : Layout) (k : TaskSpaces) : Prop :=
  ∀ A ∈ k.live, ∀ B ∈ k.live, ∀ va, kernelVirtBase ≤ va → va < 0xFFC00000 →
    walk k.paging.mem (L.pageDirectory A) va = walk k.paging.mem (L.pageDirectory B) va

/-- The entries of the kernel half are those of `page_directories[0]`. -/
structure SharedKernel (L : Layout) (k : TaskSpaces) : Prop where
  sound : ∃ cur ∈ k.live, ∃ owner, Sound L cur k.paging owner
  zero : 0 ∈ k.live
  lt : ∀ A ∈ k.live, A < maxProc
  same : ∀ A ∈ k.live, ∀ i, 768 ≤ i → i < 1023 → k.paging.entry (L.dir A) i = k.paging.entry (L.dir 0) i

theorem walk_congr_pde {m : Memory} {cr3 cr3' : ℕ}
    (h : load32 m (cr3 + 4 * pdIndex va) = load32 m (cr3' + 4 * pdIndex va)) : walk m cr3 va = walk m cr3' va := by
  unfold walk
  rw [h]

theorem SharedKernel.coherent (h : SharedKernel L k) : KernelCoherent L k := by
  intro A hA B hB va hlow hhigh
  have hi : 768 ≤ pdIndex va := by
    unfold pdIndex
    simp only [kernelVirtBase] at hlow
    omega
  have hi' : pdIndex va < 1023 := by
    unfold pdIndex
    omega
  apply walk_congr_pde
  exact (h.same A hA _ hi hi').trans (h.same B hB _ hi hi').symm

theorem sharedKernel_booted (h : SpacesBooted L k) : SharedKernel L k := by
  obtain ⟨⟨mem, old, hmem, hpaging⟩, hlive⟩ := h
  refine ⟨⟨0, ?_, _, hpaging ▸ sound_pagingInit hmem old⟩, ?_, fun A hA => ?_, fun A hA i _ _ => ?_⟩
  · rw [hlive]
    exact Finset.mem_singleton_self 0
  · rw [hlive]
    exact Finset.mem_singleton_self 0
  · rw [hlive, Finset.mem_singleton] at hA
    rw [hA]
    decide
  · rw [hlive, Finset.mem_singleton] at hA
    rw [hA]

namespace SharedKernel

/-- Nothing changes in the kernel half of the live directories. -/
theorem keep {t : PagingState} (h : SharedKernel L k) (hsound : Sound L cur t owner) (hcur : cur ∈ k.live)
    (hkeep : ∀ A ∈ k.live, ∀ i, 768 ≤ i → i < 1023 → t.entry (L.dir A) i = k.paging.entry (L.dir A) i) :
    SharedKernel L ⟨t, k.live⟩ := by
  refine ⟨⟨cur, hcur, owner, hsound⟩, h.zero, h.lt, fun A hA i hi hi' => ?_⟩
  change t.entry (L.dir A) i = t.entry (L.dir 0) i
  rw [hkeep A hA i hi hi', hkeep 0 h.zero i hi hi']
  exact h.same A hA i hi hi'

/-- `alloc_page` creates no page table, or there is no directory that could miss it. -/
theorem allocPage {r : ℕ × PagingState} (h : SharedKernel L k) (hva : KernelPage va)
    (hok : Paging.allocPage va flags k.paging = .ok r) (hshares : SharesTables k (.allocPage va flags)) :
    SharedKernel L ⟨r.2, k.live⟩ := by
  obtain ⟨cur, hcur, owner, hs⟩ := h.sound
  obtain ⟨hallocs, owner', ht⟩ := hs.allocPage hva.paged _ _ hok
  have hpresent : load32 k.paging.mem (k.paging.cr3 + 4 * pdIndex va) =
      k.paging.entry (L.dir cur) (pdIndex va) := by
    rw [hs.cr3]
    rfl
  unfold SharesTables at hshares
  dsimp only at hshares
  rw [hpresent, ← or_assoc] at hshares
  rcases hshares with hno | hlive
  · refine h.keep ht hcur fun A hA i hi hi' => ?_
    by_cases hat : A = cur ∧ i = pdIndex va
    · obtain ⟨rfl, rfl⟩ := hat
      exact hallocs.pde hno
    · exact hallocs.pdes A (h.lt A hA) i (by omega) hat
  · refine ⟨⟨cur, hcur, owner', ht⟩, h.zero, h.lt, fun A hA i hi hi' => ?_⟩
    have hA : A ∈ k.live := hA
    rw [hlive, Finset.mem_singleton] at hA
    rw [hA]

/-- A new directory takes over the kernel half of `page_directories[0]`. -/
theorem procInit (h : SharedKernel L k) (hpid : pid < maxProc) (hne : pid ≠ 0) :
    SharedKernel L ⟨pagingProcInit L pid k.paging, insert pid k.live⟩ := by
  obtain ⟨cur, hcur, owner, hs⟩ := h.sound
  refine ⟨⟨cur, Finset.mem_insert_of_mem hcur, owner, hs.procInit hpid⟩, Finset.mem_insert_of_mem h.zero, ?_, ?_⟩
  · intro A hA
    rcases Finset.mem_insert.mp hA with rfl | hA
    · exact hpid
    · exact h.lt A hA
  · intro A hA i hi hi'
    have hzero : L.dir 0 ≠ L.dir pid := fun he => hne (dir_inj he).symm
    change (pagingProcInit L pid k.paging).entry (L.dir A) i = (pagingProcInit L pid k.paging).entry (L.dir 0) i
    rw [pagingProcInit_entry hpid hne (by omega), pagingProcInit_entry hpid hne (by omega), if_neg hzero]
    split
    · unfold procEntry
      rw [if_neg (by omega), if_pos (.inl hi)]
    · rename_i hAne
      rcases Finset.mem_insert.mp hA with rfl | hA
      · exact absurd rfl hAne
      · exact h.same A hA i hi hi'

/-- The entry of the kernel stacks that `paging_fork_copy` copies is the same already. -/
theorem forkCopy {r : Bool × PagingState} (h : SharedKernel L k) (hforeign : Foreign L child k.paging)
    (hok : pagingForkCopy L child k.paging = .ok r) : SharedKernel L ⟨r.2, k.live⟩ := by
  obtain ⟨cur, hcur, owner, hs⟩ := h.sound
  obtain ⟨K, owner', ht⟩ := hs.pagingForkCopy hforeign.lt (hs.kstack_present hforeign) _ hok
  refine h.keep ht.toSound hcur fun A hA i hi hi' => ?_
  rw [ht.kept A (h.lt A hA) i hi (by omega), Sound.shareKstack,
    PagingState.entry_setEntry (by decide) (by omega) PagingState.entry_lt]
  split
  · rename_i hat
    obtain ⟨hdir, rfl⟩ := hat
    rw [h.same A hA _ hi hi', h.same cur hcur _ hi hi']
  · rfl

theorem exit (h : SharedKernel L k) (hne : pid ≠ 0) (hother : k.paging.cr3 ≠ L.pageDirectory pid) :
    SharedKernel L ⟨k.paging, k.live.erase pid⟩ := by
  obtain ⟨cur, hcur, owner, hs⟩ := h.sound
  have hcur' : cur ∈ k.live.erase pid := by
    refine Finset.mem_erase.mpr ⟨?_, hcur⟩
    rintro rfl
    exact hother hs.cr3
  refine ⟨⟨cur, hcur', owner, hs⟩, Finset.mem_erase.mpr ⟨hne.symm, h.zero⟩, ?_, ?_⟩
  · exact fun A hA => h.lt A (Finset.mem_of_mem_erase hA)
  · exact fun A hA => h.same A (Finset.mem_of_mem_erase hA)

theorem step {op : SpaceOp} (h : SharedKernel L k) (hstep : SpaceStep L k op k') (hshares : SharesTables k op) :
    SharedKernel L k' := by
  cases hstep with
  | allocPage hva hok => exact h.allocPage hva hok hshares
  | freePage hva hok =>
    obtain ⟨cur, hcur, owner, hs⟩ := h.sound
    obtain ⟨hfrees, owner', ht⟩ := hs.freePage hva.paged hva.scratch _ hok
    exact h.keep ht hcur fun A hA i _ hi' => hfrees.pdes A (h.lt A hA) i (by omega)
  | @procSwitch pid hpid =>
    obtain ⟨cur, hcur, owner, hs⟩ := h.sound
    have hswitched : Sound L pid (pagingProcSwitch L pid k.paging) owner := ⟨hs.owned, h.lt pid hpid, rfl⟩
    exact h.keep hswitched hpid fun _ _ _ _ _ => rfl
  | procInit hpid hne hother => exact h.procInit hpid hne
  | forkCopy hforeign hok => exact h.forkCopy hforeign hok
  | exit hne hother => exact h.exit hne hother

end SharedKernel

/-- As long as no page table of the kernel half is created while another directory could miss it, all
live tasks translate the kernel half alike. -/
theorem kernel_half_coherence (L : Layout) (k : TaskSpaces) (hk : SpacesReachable L SharesTables k) :
    KernelCoherent L k := by
  apply SharedKernel.coherent
  refine Reachable.invariant (I := SharedKernel L) (fun k => sharedKernel_booted) ?_ hk
  rintro k k' h ⟨op, hstep, hshares⟩
  exact h.step hstep hshares

/-- After boot with one task created. -/
def spacesWithTask : TaskSpaces := ⟨pagingProcInit sampleLayout 1 bootState, {1, 0}⟩

theorem spacesWithTask_reachable : SpacesReachable sampleLayout SharesTables spacesWithTask := by
  have hstart : SpacesReachable sampleLayout SharesTables ⟨bootState, {0}⟩ := .start ⟨bootState_booted, rfl⟩
  have hother : bootState.cr3 ≠ sampleLayout.pageDirectory 1 := by
    rw [bootState_sound.cr3]
    decide
  exact .next hstart ⟨.procInit 1, .procInit (by decide) (by decide) hother, trivial⟩

/-- Once a task is created, its directory agrees with `page_directories[0]`. -/
theorem kernel_half_coherence_task : KernelCoherent sampleLayout spacesWithTask :=
  kernel_half_coherence sampleLayout spacesWithTask spacesWithTask_reachable

/-- After boot `kmem_heap_grow` has mapped the first `n` pages of the heap, and nothing else was mapped. -/
structure HeapGrown (n : ℕ) (t : PagingState) : Prop where
  reachable : SpacesReachable sampleLayout (fun _ _ => True) ⟨t, {0}⟩
  sound : ∃ owner, Sound sampleLayout 0 t owner
  window : Window t (sampleLayout.dir 0)
  spare : Spare t.bitmap (15360 - 2 * n)
  absent : ∀ i < 1023, 768 < i → ¬Present (t.entry (sampleLayout.dir 0) i)

theorem heapPage (hn : n ≤ 1024) : KernelPage (0xC0000000 + n * 4096) := by
  refine ⟨by omega, ?_, by omega, ?_⟩
  · simp only [kernelVirtBase]
    omega
  · rintro (hc | hc)
    · simp only [forkScratchPtVa] at hc
      omega
    · simp only [forkScratchDataVa] at hc
      omega

theorem heapGrown_boot : HeapGrown 0 bootState :=
  ⟨.start ⟨bootState_booted, rfl⟩, ⟨_, bootState_sound⟩, bootState_window, bootState_spare,
    fun i hi hlow => bootState_absent (by omega) (by omega) (by omega)⟩

/-- One more page within the first page table of the heap. -/
theorem HeapGrown.grow {t : PagingState} (h : HeapGrown n t) (hn : n < 1024) : ∃ u, HeapGrown (n + 1) u := by
  obtain ⟨owner, hsound⟩ := h.sound
  have hva := heapPage hn.le
  have hpd : pdIndex (0xC0000000 + n * 4096) = 768 := by
    unfold pdIndex
    omega
  obtain ⟨u, hok, hallocs, hsound', hwindow⟩ :=
    hsound.allocPage_succeeds h.window hva.paged (h.spare.mono (by omega)) 3
  refine ⟨u, h.reachable.allocPage hva hok trivial, hsound', hwindow, ?_, fun i hi hlow => ?_⟩
  · exact hallocs.spare (h.spare.mono (by omega))
  · rw [hallocs.pdes 0 (by decide) i (by omega) fun he => by omega]
    exact h.absent i hi hlow

theorem heapGrown {n : ℕ} (hn : n ≤ 1024) : ∃ t, HeapGrown n t := by
  induction n with
  | zero => exact ⟨bootState, heapGrown_boot⟩
  | succ n ih =>
    obtain ⟨t, ht⟩ := ih (by omega)
    exact ht.grow hn

/-- The heap fills its first page table, a task is created, and the heap grows by one more page. -/
theorem kernel_half_coherence_fails :
    ¬∀ (L : Layout) (k : TaskSpaces), SpacesReachable L (fun _ _ => True) k → KernelCoherent L k := by
  intro hall
  obtain ⟨t, h⟩ := heapGrown (le_refl 1024)
  obtain ⟨owner, hsound⟩ := h.sound
  have hva : KernelPage 0xC0400000 := heapPage (le_refl 1024)
  have hother : t.cr3 ≠ sampleLayout.pageDirectory 1 := by
    rw [hsound.cr3]
    decide
  -- the directory of the task takes over what is there
  have hpde : ∀ pid < 2, ¬Present ((pagingProcInit sampleLayout 1 t).entry (sampleLayout.dir pid) 769) := by
    intro pid hpid
    rw [pagingProcInit_entry (by decide) (by decide) (by decide)]
    split
    · exact h.absent 769 (by decide) (by decide)
    · rename_i hne
      obtain rfl : pid = 0 := by
        by_contra hpos
        exact hne (by rw [show pid = 1 by omega])
      exact h.absent 769 (by decide) (by decide)
  have hcreated : Sound sampleLayout 0 (pagingProcInit sampleLayout 1 t) owner :=
    hsound.procInit (by decide)
  have hwindow : Window (pagingProcInit sampleLayout 1 t) (sampleLayout.dir 0) := by
    apply h.window.congr
    · exact pagingProcInit_cr3 (by decide)
    · exact (pagingProcInit_entry (by decide) (by decide) (by decide)).trans (if_neg (by decide))
  have hspare : Spare (pagingProcInit sampleLayout 1 t).bitmap 2 := by
    rw [pagingProcInit_bitmap (by decide)]
    exact h.spare.mono (by decide)
  obtain ⟨u, hok, hallocs, -⟩ := hcreated.allocPage_succeeds hwindow hva.paged hspare 3
  have hinit : SpaceStep sampleLayout ⟨t, {0}⟩ (.procInit 1) ⟨pagingProcInit sampleLayout 1 t, {1, 0}⟩ :=
    .procInit (by decide) (by decide) hother
  have hborn : SpacesReachable sampleLayout (fun _ _ => True) ⟨pagingProcInit sampleLayout 1 t, {1, 0}⟩ :=
    .next h.reachable ⟨_, hinit, trivial⟩
  have hreach := hborn.allocPage hva hok trivial
  have hsame := hall sampleLayout _ hreach 0 (show 0 ∈ ({1, 0} : Finset ℕ) by decide) 1
    (show 1 ∈ ({1, 0} : Finset ℕ) by decide) 0xC0400000 (by decide) (by decide)
  have htask : ¬Mapped u.mem (sampleLayout.pageDirectory 1) 0xC0400000 := by
    intro hmapped
    have hmaps := (mapped_iff (s := { u with cr3 := sampleLayout.pageDirectory 1 }) rfl).mp hmapped
    have hkept := hallocs.pdes 1 (by decide) 769 (by decide) (fun he => absurd he.1 (by decide))
    exact hpde 1 (by decide) (hkept ▸ hmaps.1)
  have hkernel : Mapped u.mem (sampleLayout.pageDirectory 0) 0xC0400000 := by
    have hunmapped : ¬Mapped (pagingProcInit sampleLayout 1 t).mem (pagingProcInit sampleLayout 1 t).cr3 0xC0400000 := by
      rw [mapped_iff hcreated.cr3]
      exact fun hmaps => hpde 0 (by decide) hmaps.1
    have hmaps := (hallocs.here hunmapped).mpr (show 0xC0400000 ≠ 0 by decide)
    exact (mapped_iff (s := { u with cr3 := sampleLayout.pageDirectory 0 }) rfl).mpr hmaps
  apply htask
  unfold Mapped at hkernel ⊢
  rw [← hsame]
  exact hkernel

end HekaOS.Paging
