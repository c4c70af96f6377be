import HekaOS.Refusals
import HekaOS.ForkPrivacy

/-!
# Creators come to an end

While the chunk pool has a struct, a creator returns: it is granted what it asks for, or it is refused and undoes what
it has done. `task_fork` is refused just when the frames do not suffice for the kernel stack and the user half.
-/

namespace HekaOS.TaskMemory
open MachineWord KernelMemory KernelTriples PageWalk WordBitmap PhysPageFrame AddressMap Vmalloc Paging Tasks

variable {L : Layout} {m n : MemState} {s t u b : PagingState} {kind : SpawnKind} {dirs unused : Set ℕ} {k : ℕ → ℕ}
  {a cur fuel i K pid size : ℕ}

/-! ### The kernel stack and the directory -/

/-- If the user half comes to an end with the answer `Q`, so does all of it. -/
theorem Spawnable.furnish_returns {Q : Bool → Prop} (h : Spawnable L cur pid s) (hsized : kind.Sized)
    (hshort : (Present (s.entry (L.dir cur) kstackPdeIndex) → physFreeCount s.bitmap < kstackPages) → Q false)
    (hload : ∀ b K k u, TableMade L cur kstackPdeIndex s b → Tabled (L.dir cur) K kstackPdeIndex b →
      Opened L cur pid K k b u → Returns (kind.load L pid u) fun r => Q r.1) :
    Returns (TaskMemory.furnish L pid kind s) fun r => Q r.1.2 := by
  obtain ⟨owner, hs⟩ := h.sound
  unfold furnish
  have hmapped := (mapKstack_returns hs (hs.homed.window h.window) h.lt h.slots).and_ensures
    (mapKstack_advance hs pid h.lt fun p hp => List.mem_range.mp hp)
  refine hmapped.bind fun r hr => ?_
  obtain ⟨a, t⟩ := r
  obtain ⟨hmapped, hadvance⟩ := hr
  rcases hmapped with ⟨rfl, -, hfull⟩ | ⟨b, K, hmade, htabled, ⟨rfl, -, hfew⟩ | ⟨rfl, k, hstacked⟩⟩
  · refine returns_ok (hshort fun hpresent => ?_)
    rw [full_iff.mp (hfull hpresent)]
    decide
  · refine returns_ok (hshort fun hpresent => ?_)
    rw [← hmade.old hpresent]
    exact hfew
  obtain ⟨owner', hb⟩ := hmade.sound
  have hopened := hstacked.procInit hb htabled hadvance.sound h.lt h.ne_zero h.other
  refine ((hload b K k _ hmade htabled hopened).and_ensures (hopened.load hsized)).bind fun r hr => ?_
  obtain ⟨ok, u⟩ := r
  obtain ⟨hanswer, hload, E, T, hE, hstacked', hdisjoint, hleft⟩ := hr
  cases ok with
  | true => exact returns_ok hanswer
  | false =>
    have hdesk := hstacked'.desk hb htabled hload.sound h.lt h.other
    obtain ⟨v, hv, -⟩ := Opened.fails hmade htabled h.slots hdesk hstacked' hdisjoint hE (hleft rfl)
    obtain ⟨w, hw, hv⟩ := bind_eq_ok.mp hv
    change Returns (TaskMemory.freeKstack (kstackVa pid) kstackPages u >>= fun s => kind.unload L pid s >>= fun s =>
      .ok ((kstackPages, false), s)) _
    rw [hw, ok_bind, hv, ok_bind]
    exact returns_ok hanswer

/-- What `task_fork` copies is the same when the kernel stack is mapped. -/
theorem Opened.forkDemand_eq (h : Opened L cur pid K k s u) (hs : Spawnable L cur pid s)
    (htabled : Tabled (L.dir cur) K kstackPdeIndex s) : forkDemand u (L.dir cur) = forkDemand s (L.dir cur) := by
  obtain ⟨owner, hsound⟩ := hs.sound
  have hsite := hsound.site hs.window htabled.present hs.lt hs.other
  rw [htabled.table] at hsite
  exact forkDemand_touched hsite h.stacked.touched

theorem Spawnable.furnish_fork (h : Spawnable L cur pid s) (hkstack : Present (s.entry (L.dir cur) kstackPdeIndex)) :
    Returns (TaskMemory.furnish L pid .fork s) fun r =>
      r.1.2 = decide (kstackPages + forkDemand s (L.dir cur) ≤ physFreeCount s.bitmap) := by
  have hsized : SpawnKind.fork.Sized := trivial
  refine h.furnish_returns (Q := fun ok => ok = decide (kstackPages + forkDemand s (L.dir cur) ≤ physFreeCount s.bitmap))
    hsized (fun hshort => ?_) fun b K k u hmade htabled hopened => ?_
  · have hshort := hshort hkstack
    exact (decide_eq_false (by omega)).symm
  · obtain rfl := hmade.old hkstack
    obtain ⟨r, hr, -⟩ := hopened.desk.forkCopy hopened.empty
    refine ⟨r, hr, ?_⟩
    have hcount := hopened.stacked.touched.freeCount
    rw [Finset.card_pair hopened.stacked.apart.symm] at hcount
    dsimp only
    rw [pagingForkCopy_answer hopened.desk.site hopened.empty hr, hopened.forkDemand_eq h htabled]
    simp only [kstackPages]
    exact decide_eq_decide.mpr (by omega)

theorem Spawnable.furnish_kthread (h : Spawnable L cur pid s) (hkstack : Present (s.entry (L.dir cur) kstackPdeIndex)) :
    Returns (TaskMemory.furnish L pid .kthread s) fun r => r.1.2 = decide (kstackPages ≤ physFreeCount s.bitmap) := by
  have hsized : SpawnKind.kthread.Sized := trivial
  refine h.furnish_returns (Q := fun ok => ok = decide (kstackPages ≤ physFreeCount s.bitmap)) hsized
    (fun hshort => ?_) fun b K k u hmade _ hopened => ?_
  · have hshort := hshort hkstack
    exact (decide_eq_false (by omega)).symm
  · obtain rfl := hmade.old hkstack
    have hcount := hopened.stacked.touched.freeCount
    rw [Finset.card_pair hopened.stacked.apart.symm] at hcount
    refine returns_ok (decide_eq_true ?_).symm
    simp only [kstackPages]
    omega

/-! ### The answers -/

namespace InOrder

/-- Where the kernel stack and the user half come to an end, so does the creator. -/
theorem spawn_furnished (h : InOrder L cur dirs unused m) (hpid : pid ∈ unused) (hnew : pid ∉ dirs) (hsized : kind.Sized)
    {pages : ℕ} {ok : Bool} (hok : TaskMemory.kmalloc taskSize m = .ok (a, n))
    (hfurnished : TaskMemory.furnish L pid kind n.paging = .ok ((pages, ok), t)) :
    ∃ bound, ∀ fuel, bound ≤ fuel → Returns (TaskMemory.spawn L fuel pid kind m) fun r =>
      r.1 = ⟨some a, if ok then kstackPages else pages, ok⟩ := by
  obtain ⟨hpos, hhanded⟩ := kmalloc_handed h.pooled taskSize_served.1 taskSize_served.2 hok
  have hn : InOrder L cur dirs unused n := h.kmalloc hhanded
  have hspawn : ∀ fuel, TaskMemory.spawn L fuel pid kind m = if ok then .ok (⟨some a, kstackPages, true⟩, n.withPaging t)
      else TaskMemory.kfree fuel a (n.withPaging t) >>= fun m => .ok (⟨some a, pages, false⟩, m) := by
    intro fuel
    unfold TaskMemory.spawn
    rw [hok, ok_bind]
    dsimp only
    rw [if_neg hpos, hfurnished]
    rfl
  cases ok with
  | true =>
    refine ⟨0, fun fuel _ => ?_⟩
    rw [hspawn, if_pos rfl]
    exact returns_ok rfl
  | false =>
    have hback := hn.furnish hpid hnew hsized _ hfurnished
    dsimp only at hback
    rw [if_neg Bool.false_ne_true] at hback
    have ha : a ∈ (n.withPaging t).objects := by
      change a ∈ n.objects
      rw [hhanded.objects]
      exact Finset.mem_insert_self a _
    obtain ⟨w, -, -, bound, hw⟩ := kfree_returned hback.1.pooled ha (hback.1.freePage_object ha)
    refine ⟨bound, fun fuel hfuel => ?_⟩
    rw [hspawn, if_neg Bool.false_ne_true, hw fuel hfuel, ok_bind]
    exact returns_ok rfl

/-- The page table of the kernel stacks is there behind `kmalloc`. -/
theorem handed_kstack (h : InOrder L cur dirs unused m) (hn : Handed size a m n)
    (hkstack : Present (m.paging.entry (L.dir cur) kstackPdeIndex))
    (hpool : Present (m.paging.entry (L.dir cur) (pdIndex m.pool.vptr))) :
    Present (n.paging.entry (L.dir cur) kstackPdeIndex) := by
  rw [h.handed_dir hn hpool (by decide)]
  exact hkstack

/-- A kernel task with a struct to be had is granted just when the frames suffice for its stack. -/
theorem spawn_kthread (h : InOrder L cur dirs unused m) (hpid : pid ∈ unused) (hnew : pid ∉ dirs)
    (hkstack : Present (m.paging.entry (L.dir cur) kstackPdeIndex))
    (hpool : Present (m.paging.entry (L.dir cur) (pdIndex m.pool.vptr))) (hok : TaskMemory.kmalloc taskSize m = .ok (a, n)) :
    ∃ bound, ∀ fuel, bound ≤ fuel → Returns (TaskMemory.spawn L fuel pid .kthread m) fun r =>
      r.1.userImage = decide (poolDemand taskSize m.pool + kstackPages ≤ physFreeCount m.paging.bitmap) := by
  obtain ⟨-, hhanded⟩ := kmalloc_handed h.pooled taskSize_served.1 taskSize_served.2 hok
  have hcount := h.handed_count hhanded hpool
  have hspawnable := (h.kmalloc hhanded).spawnable hpid hnew
  obtain ⟨⟨⟨pages, ok⟩, t⟩, hfurnished, hanswer⟩ := hspawnable.furnish_kthread (h.handed_kstack hhanded hkstack hpool)
  have hanswer : ok = decide (kstackPages ≤ physFreeCount n.paging.bitmap) := hanswer
  have hsized : SpawnKind.kthread.Sized := trivial
  obtain ⟨bound, hbound⟩ := h.spawn_furnished hpid hnew hsized hok hfurnished
  refine ⟨bound, fun fuel hfuel => ?_⟩
  obtain ⟨r, hr, hresult⟩ := hbound fuel hfuel
  refine ⟨r, hr, ?_⟩
  dsimp only
  rw [hresult]
  have hsame : kstackPages ≤ physFreeCount n.paging.bitmap ↔
      poolDemand taskSize m.pool + kstackPages ≤ physFreeCount m.paging.bitmap := by omega
  exact hanswer.trans (decide_eq_decide.mpr hsame)

/-- The user half of the current directory is the same behind `kmalloc`. -/
theorem handed_forkDemand (h : InOrder L cur dirs unused m) (hn : Handed size a m n)
    (hpool : Present (m.paging.entry (L.dir cur) (pdIndex m.pool.vptr))) :
    forkDemand n.paging (L.dir cur) = forkDemand m.paging (L.dir cur) := by
  obtain ⟨owner, hs⟩ := h.sound
  by_cases hdrained : Drained size m.pool
  · obtain ⟨g, hin⟩ := h.handed_page hn hdrained hpool
    have hwell := hs.wellFormed (h.window cur h.current)
    have hva := h.pooled.vptr_page
    have hhigh := (poolPage_index hva).1.low
    have hp : pdIndex m.pool.vptr < 1024 := hva.paged.pdIndex_lt.trans (by decide)
    refine Finset.sum_congr rfl fun p hp' => ?_
    obtain ⟨hlow, hlt⟩ := Finset.mem_Ico.mp hp'
    unfold tableDemand
    rw [h.handed_dir hn hpool (by omega)]
    split
    · rename_i hpresent
      have hne : m.paging.entry (L.dir cur) p / 4096 ≠ m.paging.entry (L.dir cur) (pdIndex m.pool.vptr) / 4096 :=
        hwell.distinct p (by omega) _ hp (by omega) hpresent hpool
      refine congrArg (1 + ·) (Finset.sum_congr rfl fun q hq => ?_)
      rw [entry_congr hin.mem hne (Finset.mem_range.mp hq)]
    · rfl
  · have hpage := hn.page
    rw [if_neg hdrained] at hpage
    rw [hpage.1]

/-- A fork with a struct to be had is granted just when the frames suffice. -/
theorem spawn_fork (h : InOrder L cur dirs unused m) (hpid : pid ∈ unused) (hnew : pid ∉ dirs)
    (hkstack : Present (m.paging.entry (L.dir cur) kstackPdeIndex))
    (hpool : Present (m.paging.entry (L.dir cur) (pdIndex m.pool.vptr))) (hok : TaskMemory.kmalloc taskSize m = .ok (a, n)) :
    ∃ bound, ∀ fuel, bound ≤ fuel → Returns (TaskMemory.spawn L fuel pid .fork m) fun r => r.1.kmalloc = some a ∧
      (r.1.userImage = true → r.1.kstackPages = kstackPages) ∧
      r.1.userImage = decide (poolDemand taskSize m.pool + kstackPages + forkDemand m.paging (L.dir cur) ≤
        physFreeCount m.paging.bitmap) := by
  obtain ⟨-, hhanded⟩ := kmalloc_handed h.pooled taskSize_served.1 taskSize_served.2 hok
  have hcount : physFreeCount n.paging.bitmap + poolDemand taskSize m.pool = physFreeCount m.paging.bitmap :=
    h.handed_count hhanded hpool
  have hspawnable := (h.kmalloc hhanded).spawnable hpid hnew
  obtain ⟨⟨⟨pages, ok⟩, t⟩, hfurnished, hanswer⟩ := hspawnable.furnish_fork (h.handed_kstack hhanded hkstack hpool)
  have hanswer : ok = decide (poolDemand taskSize m.pool + kstackPages + forkDemand m.paging (L.dir cur) ≤
      physFreeCount m.paging.bitmap) := by
    have hanswer : ok = decide (kstackPages + forkDemand n.paging (L.dir cur) ≤ physFreeCount n.paging.bitmap) := hanswer
    rw [hanswer, h.handed_forkDemand hhanded hpool]
    exact decide_eq_decide.mpr (by omega)
  have hsized : SpawnKind.fork.Sized := trivial
  obtain ⟨bound, hbound⟩ := h.spawn_furnished hpid hnew hsized hok hfurnished
  refine ⟨bound, fun fuel hfuel => ?_⟩
  obtain ⟨r, hr, hresult⟩ := hbound fuel hfuel
  refine ⟨r, hr, ?_⟩
  dsimp only
  rw [hresult]
  refine ⟨rfl, fun htrue => ?_, hanswer⟩
  exact if_pos htrue

end InOrder

end HekaOS.TaskMemory
