import HekaOS.ReapedChild
import HekaOS.Refusals
import HekaOS.FirstTasks

/-!
# What `task_reap` gives back

The frames of the kernel stack, of the user half and of the page of the chunk pool that held nothing but the struct
go back, and no others. The user halves of the other directories are not stored to.
-/

namespace HekaOS.Paging
open MachineWord KernelMemory KernelTriples PageWalk WordBitmap PhysPageFrame AddressMap
open Tasks (maxProc)

variable {L : Layout} {s t u : PagingState} {owner : ℕ → Owner} {D D' : ℕ → Prop} {W W' : Set ℕ}
  {K cur dc f g i j n pid pid' q va : ℕ}

/-- The bits of the frames `D` are cleared, and only the frames `W` stored to. -/
structure Releases (W : Set ℕ) (D : ℕ → Prop) (s t : PagingState) : Prop where
  cr3 : t.cr3 = s.cr3
  bitmap : GivenBack D s t
  kept : ∀ a, a / 4096 ∉ W → t.mem a = s.mem a

namespace Releases

theorem entry (h : Releases W D s t) (hf : f ∉ W) (hj : j < 1024) : t.entry f j = s.entry f j :=
  PagingState.entry_of_mem (fun a ha => h.kept a (ha ▸ hf)) hj

theorem mono (h : Releases W D s t) (hW : W ⊆ W') : Releases W' D s t :=
  ⟨h.cr3, h.bitmap, fun a ha => h.kept a fun hin => ha (hW hin)⟩

theorem congr (h : Releases W D s t) (hD : ∀ x, D' x ↔ D x) : Releases W D' s t :=
  ⟨h.cr3, h.bitmap.congr hD rfl, h.kept⟩

theorem trans (h : Releases W D s t) (h' : Releases W D' t u) : Releases W (fun x => D x ∨ D' x) s u := by
  refine ⟨h'.cr3.trans h.cr3, fun x => ?_, fun a ha => ?_⟩
  · rw [h'.bitmap x, h.bitmap x, not_or, and_assoc]
  · rw [h'.kept a ha, h.kept a ha]

theorem pageOut (h : PageOut K q g s t) (hK : K ∈ W) : Releases W (fun x => x = g) s t := by
  refine ⟨h.cr3, fun x => ?_, fun a ha => h.mem a fun he => ha (he ▸ hK)⟩
  rw [h.bitmap, Bool.and_eq_true, Bool.not_eq_true', decide_eq_false_iff_not]

theorem tornDown (h : TornDown dc K n s t) (hK : K ∈ W) (hdc : dc ∈ W) : Releases W (FrameBelow s dc n) s t :=
  ⟨h.cr3, h.bitmap, fun a ha => h.kept a (fun he => ha (he ▸ hK)) fun he => ha (he ▸ hdc)⟩

end Releases

namespace Sound

/-- The frame behind a page that is mapped, in the ledger. -/
theorem page_at (h : Sound L cur s owner) (hva : Paged va) (hns : ¬Scratch (pdIndex va) (ptIndex va))
    (hwalk : walk s.mem s.cr3 va = some (f * 4096)) : Present (s.entry (L.dir cur) (pdIndex va)) ∧
      Points (s.entry (s.entry (L.dir cur) (pdIndex va) / 4096) (ptIndex va)) f ∧
      owner f = .page (s.entry (L.dir cur) (pdIndex va) / 4096) (ptIndex va) := by
  rw [h.cr3] at hwalk
  obtain ⟨⟨hpde, hpte⟩, heq⟩ := walk_eq_some.mp hwalk
  have haligned := hva.aligned
  have hframe : s.entry (s.entry (L.dir cur) (pdIndex va) / 4096) (ptIndex va) / 4096 = f := by
    unfold pteOf at heq
    omega
  have htable := h.owned.owner_table h.cur_lt hva.pdIndex_pos hva.pdIndex_lt hpde
  have hpage := h.owned.pte _ _ _ htable _ (ptIndex_lt va) hns hpte
  rw [hframe] at hpage
  exact ⟨hpde, ⟨hpte, hframe, PagingState.entry_lt⟩, hpage⟩

theorem freeable (h : Sound L cur s owner) (hf : owner f ≠ .free) : Freeable f :=
  ⟨(h.owned.used f hf).1, (h.owned.used f hf).2.1⟩

/-- A directory that is not stored to translates the user half as before, where no table of it is stored to. -/
theorem walk_released (h : Sound L cur s owner) (hpid : pid < maxProc) (ht : Releases W D s t)
    (hW : ∀ f ∈ W, f ≠ L.dir pid ∧ f ≠ L.fptFrame ∧ ∀ p < 768, owner f ≠ .table p pid) (hva : va < 0xC0000000) :
    walk t.mem (L.pageDirectory pid) va = walk s.mem (L.pageDirectory pid) va := by
  have hp : pdIndex va < 768 := by
    unfold pdIndex
    omega
  have hpde : t.entry (L.dir pid) (pdIndex va) = s.entry (L.dir pid) (pdIndex va) :=
    ht.entry (fun hin => (hW _ hin).1 rfl) (by omega)
  refine walk_congr_entries hpde fun hpresent => .inl ?_
  unfold pteOf
  rw [hpde]
  refine ht.entry (fun hin => ?_) (ptIndex_lt va)
  have hleads := h.owned.pde pid hpid _ (by omega) hpresent
  rcases Nat.eq_zero_or_pos (pdIndex va) with hzero | hpos
  · exact (hW _ hin).2.1 (hleads.first hzero)
  · have htable := hleads.table hpos (by omega)
    rw [Working.tableOf_user hp] at htable
    exact (hW _ hin).2.2 _ hp htable

/-- A page table of the kernel half is no frame of a user half. -/
theorem kernel_table (h : Sound L cur s owner) (hi : 768 ≤ i) (hi' : i < 1023) (hpresent : Present (s.entry (L.dir cur) i))
    (hpid : pid < maxProc) : s.entry (L.dir cur) i / 4096 ≠ L.dir pid ∧ s.entry (L.dir cur) i / 4096 ≠ L.fptFrame ∧
      ∀ p < 768, owner (s.entry (L.dir cur) i / 4096) ≠ .table p pid := by
  have htable := h.owned.owner_table h.cur_lt (by omega) hi' hpresent
  have hused := Owned.owner_ne_free htable
  refine ⟨h.owned.ne_dir hused hpid, h.owned.ne_fpt hused, fun p hp he => ?_⟩
  have := (Owner.table.inj (htable.symm.trans he)).1
  omega

/-- A directory is none either. -/
theorem other_dir (h : Sound L cur s owner) (hpid' : pid' < maxProc) (hne : pid' ≠ pid) :
    L.dir pid' ≠ L.dir pid ∧ L.dir pid' ≠ L.fptFrame ∧ ∀ p < 768, owner (L.dir pid') ≠ .table p pid := by
  refine ⟨fun he => hne (dir_inj he), dir_ne_fpt hpid', fun p _ he => ?_⟩
  have hfree := h.owned.low (dir_lt (L := L) hpid')
  cases hfree.symm.trans he

end Sound

end HekaOS.Paging

namespace HekaOS.TaskMemory
open MachineWord KernelMemory KernelTriples PageWalk WordBitmap PhysPageFrame AddressMap Vmalloc Paging Tasks
open Kmalloc (pageOf)
open PointerChain (chain_cons chain_nil)

variable {L : Layout} {m n : MemState} {s t : PagingState} {x : Task} {dirs unused : Set ℕ} {k : ℕ → ℕ}
  {a cur fuel g K pid z : ℕ}

/-- The kernel stack is unmapped and the user half given back. -/
theorem unfurnish_returns (h : Desk L cur pid K s) (hpage : ∀ p < kstackPages, Points (s.entry K (2 * pid + p)) (k p))
    (hback : ∀ p < kstackPages, Freeable (k p)) :
    Returns (freeKstack (kstackVa pid) kstackPages s >>= fun s => pagingProcTeardown L pid s) fun t =>
      Releases {K, L.dir pid} (fun f => (f = k 0 ∨ f = k 1) ∨ FrameBelow s (L.dir pid) 768 f) s t ∧
        (∀ p, 0 < p → p < 768 → ¬Present (t.entry (L.dir pid) p)) ∧ Advance L cur maxProc ∅ s t := by
  obtain ⟨owner, hs⟩ := h.sound
  have hbench := h.site.bench
  have htabled : Tabled (L.dir cur) K kstackPdeIndex s := ⟨hbench.window, hbench.present, hbench.table, hbench.apart⟩
  have hKdir : L.dir pid ≠ K := h.site.child.2
  refine ((freeKstack_returns htabled h.lt hpage hback).and_ensures
    (freeKstack_advance hs maxProc h.lt le_rfl)).bind fun v hv => ?_
  obtain ⟨⟨w, hout₀, hout₁⟩, hadvance, hpdes⟩ := hv
  have hstack : Releases {K, L.dir pid} (fun f => f = k 0 ∨ f = k 1) s v :=
    (Releases.pageOut hout₀ (by simp)).trans (.pageOut hout₁ (by simp))
  have hsame : ∀ f, f ≠ K → ∀ j < 1024, v.entry f j = s.entry f j := by
    intro f hf j hj
    rw [entry_congr hout₁.mem hf hj, entry_congr hout₀.mem hf hj]
  -- the page table of the kernel stacks is none of the user half
  have hbelow : ∀ x, FrameBelow v (L.dir pid) 768 x ↔ FrameBelow s (L.dir pid) 768 x := by
    refine fun x => frameBelow_congr (fun i hi => hsame _ hKdir i (by omega)) fun p hp hp' hpresent q hq => hsame _ ?_ q hq
    intro he
    have htable := hs.owned.owner_table h.lt hp (by omega) hpresent
    rw [he, h.owner_table hs, Working.tableOf_user hp'] at htable
    have hindex : kstackPdeIndex = 956 := by decide
    have := (Owner.table.inj htable).1
    omega
  refine ((h.of_sound hadvance.sound fun i hi => hpdes cur h.cur_lt i hi).procTeardown).mono fun t ht => ?_
  obtain ⟨hteardown, -, htorn⟩ := ht
  have htorn' : Releases {K, L.dir pid} (FrameBelow v (L.dir pid) 768) v t := .tornDown htorn (by simp) (by simp)
  exact ⟨(hstack.trans htorn').congr fun x => or_congr_right (hbelow x).symm, htorn.absent,
    (hadvance.trans hteardown).mono (by simp)⟩

/-- The bits of the frames `D` are cleared, the user half of `pid` is empty, and those of the other directories are as
they were. -/
structure Freed (L : Layout) (pid : ℕ) (D : ℕ → Prop) (s t : PagingState) : Prop where
  bitmap : GivenBack D s t
  others : ∀ pid' < maxProc, pid' ≠ pid → ∀ va < 0xC0000000,
    walk t.mem (L.pageDirectory pid') va = walk s.mem (L.pageDirectory pid') va
  empty : ∀ p, 0 < p → p < 768 → ¬Present (t.entry (L.dir pid) p)

theorem kstack_page_at {owner : ℕ → Owner} {f p : ℕ} (hs : Sound L cur s owner) (hpid : pid < maxProc) (hp : p < kstackPages)
    (hwalk : walk s.mem s.cr3 (kstackVa pid + p * pageSize) = some (f * 4096)) :
    Points (s.entry (s.entry (L.dir cur) kstackPdeIndex / 4096) (2 * pid + p)) f ∧ Freeable f := by
  have hindex := slot_pdIndex hpid hp
  have hentry := slot_ptIndex hpid hp
  have hns : ¬Scratch (pdIndex (kstackVa pid + p * pageSize)) (ptIndex (kstackVa pid + p * pageSize)) := by
    rw [hindex, hentry]
    exact slot_not_scratch hpid hp
  obtain ⟨-, hpoints, howner⟩ := hs.page_at (slot_paged hpid hp) hns hwalk
  rw [hindex, hentry] at hpoints
  exact ⟨hpoints, hs.freeable (Owned.page_ne_free howner)⟩

/-- Behind the kernel stack and the user half, the struct is freed. -/
theorem releaseMemory_eq (hkstack : x.kstack = kstackVa x.pid)
    (ht : (freeKstack (kstackVa x.pid) kstackPages m.paging >>= fun s => pagingProcTeardown L x.pid s) = .ok t) (fuel : ℕ) :
    releaseMemory L fuel a x m = TaskMemory.kfree fuel a (m.withPaging t) := by
  have hne : x.kstack ≠ 0 := by
    rw [hkstack]
    simp only [kstackVa, kstackVaBase]
    omega
  obtain ⟨v, hv, ht⟩ := bind_eq_ok.mp ht
  unfold releaseMemory
  rw [if_pos hne, hkstack, hv, ok_bind]
  dsimp only
  rw [ht, ok_bind]

/-- `task_reap` on the memory comes to an end, and this is what it has done. -/
theorem InOrder.releases (h : InOrder L cur dirs unused m) (ha : a ∈ m.objects) (hpid : x.pid ∈ dirs) (hpos : x.pid ≠ 0)
    (hother : x.pid ≠ cur) (hkstack : x.kstack = kstackVa x.pid)
    (hstack : ∀ p < kstackPages, walk m.paging.mem m.paging.cr3 (x.kstack + p * pageSize) = some (k p * 4096))
    (hstruct : walk m.paging.mem m.paging.cr3 (pageOf a) = some (g * 4096)) :
    ∃ n, Freed L x.pid (fun f => ((f = k 0 ∨ f = k 1) ∨ FrameBelow m.paging (L.dir x.pid) 768 f) ∨
        f = g ∧ ¬∃ d ∈ m.objects.erase a, pageOf d = pageOf a) m.paging n.paging ∧
      (∀ fuel n', releaseMemory L fuel a x m = .ok n' → n' = n) ∧
      ∃ bound, ∀ fuel, bound ≤ fuel → releaseMemory L fuel a x m = .ok n := by
  obtain ⟨owner, hs⟩ := h.sound
  have hlt := h.lt _ hpid
  have hdesk := h.desk hpid hpos hother
  have hpage : ∀ p < kstackPages, _ := fun p hp => kstack_page_at hs hlt hp (hkstack ▸ hstack p hp)
  obtain ⟨t, ht, hreleases, hempty, hadvance⟩ :=
    unfurnish_returns hdesk (fun p hp => (hpage p hp).1) fun p hp => (hpage p hp).2
  have hmid : InOrder L cur dirs unused (m.withPaging t) := h.quiet hadvance h.pooled rfl
  have ha' : a ∈ (m.withPaging t).objects := ha
  obtain ⟨n, hreturned, hunique, bound, hbound⟩ := kfree_returned hmid.pooled ha' (hmid.freePage_object ha')
  have hcalls : ∀ fuel, releaseMemory L fuel a x m = TaskMemory.kfree fuel a (m.withPaging t) := releaseMemory_eq hkstack ht
  refine ⟨n, ?_, fun fuel n' hok => hunique fuel n' (hcalls fuel ▸ hok), bound, fun fuel hfuel => hcalls fuel ▸ hbound fuel hfuel⟩
  have hobject := h.pooled.object_page ha
  have hpool := (h.pooled.mapped_page hobject.1).1
  have hindex := (poolPage_index hpool).1
  obtain ⟨hpde, hpoints, howner⟩ := hs.page_at hpool.paged hindex.scratch hstruct
  obtain ⟨K, hK⟩ : ∃ K, m.paging.entry (L.dir cur) kstackPdeIndex / 4096 = K := ⟨_, rfl⟩
  obtain ⟨K', hK'⟩ : ∃ K', m.paging.entry (L.dir cur) (pdIndex (pageOf a)) / 4096 = K' := ⟨_, rfl⟩
  rw [hK] at hreleases
  -- stores go to the directory and to two page tables of the kernel half
  have hkstackTable : ∀ pid' < maxProc, _ := fun pid' hpid' =>
    hs.kernel_table (show 768 ≤ kstackPdeIndex by decide) (by decide) hdesk.kstack hpid'
  have hpoolTable : ∀ pid' < maxProc, _ := fun pid' hpid' => hs.kernel_table hindex.low hindex.high hpde hpid'
  rw [hK] at hkstackTable
  rw [hK'] at hpoints howner hpoolTable
  have hW : ∀ pid' < maxProc, pid' ≠ x.pid → ∀ f ∈ ({K, L.dir x.pid, K'} : Set ℕ),
      f ≠ L.dir pid' ∧ f ≠ L.fptFrame ∧ ∀ p < 768, owner f ≠ .table p pid' := by
    rintro pid' hpid' hne f (rfl | rfl | rfl)
    · exact hkstackTable pid' hpid'
    · exact hs.other_dir hlt hne.symm
    · exact hpoolTable pid' hpid'
  have hall : Releases {K, L.dir x.pid, K'} _ m.paging t := hreleases.mono (by grind)
  have hfreed : ∀ {D : ℕ → Prop}, Releases {K, L.dir x.pid, K'} D m.paging n.paging →
      (∀ i < 1024, n.paging.entry (L.dir x.pid) i = t.entry (L.dir x.pid) i) → Freed L x.pid D m.paging n.paging := by
    refine fun hall hdir => ⟨hall.bitmap, fun pid' hpid' hne va hva => ?_, fun p hp hp' => ?_⟩
    · exact hs.walk_released hpid' hall (hW pid' hpid' hne) hva
    · rw [hdir p (by omega)]
      exact hempty p hp hp'
  have hgiven := hreturned.page
  by_cases hshared : ∃ d ∈ m.objects.erase a, pageOf d = pageOf a
  · have hshared' : ∃ d ∈ (m.withPaging t).objects.erase a, pageOf d = pageOf a := hshared
    rw [if_pos hshared'] at hgiven
    have hsame : n.paging = t := hgiven.1
    refine hfreed ?_ fun i _ => by rw [hsame]
    rw [hsame]
    exact hall.congr fun f => by simp only [hshared, not_true_eq_false, and_false, or_false]
  · have hlast : ¬∃ d ∈ (m.withPaging t).objects.erase a, pageOf d = pageOf a := hshared
    rw [if_neg hlast] at hgiven
    obtain ⟨ownert, hst⟩ := hmid.sound
    have hst : Sound L cur t ownert := hst
    have hwell := hs.wellFormed (h.window cur h.current)
    have hindexlt := hindex.high
    have hKK' : K' ≠ K := by
      rw [← hK, ← hK']
      exact hwell.distinct _ (by omega) _ (by decide) (poolPage_index hpool).2 hpde hdesk.kstack
    have hdir : ∀ i < 1024, t.entry (L.dir cur) i = m.paging.entry (L.dir cur) i := by
      refine fun i hi => hreleases.entry ?_ hi
      rintro (he | he)
      · exact (hkstackTable cur h.cur_lt).1 he.symm
      · exact hother (dir_inj he).symm
    have htable : ∀ j < 1024, t.entry K' j = m.paging.entry K' j := by
      refine fun j hj => hreleases.entry ?_ hj
      rintro (he | he)
      · exact hKK' he
      · exact (hpoolTable _ hlt).1 he
    have htabled := hst.tabled (hst.homed.window (hmid.window cur hmid.current)) hpool.paged.pdIndex_pos hindex.high (by
      rw [hdir _ (by omega)]
      exact hpde)
    rw [hdir _ (by omega), hK'] at htabled
    have hback := hs.freeable (Owned.page_ne_free howner)
    rw [← htable _ (ptIndex_lt _)] at hpoints
    obtain ⟨u, hu, hout⟩ := htabled.freePage hpool.paged rfl hpoints hback.1 hback.2
    obtain rfl := Except.ok.inj (hgiven.1.symm.trans hu)
    refine hfreed ?_ fun i hi => entry_congr hout.mem (hpoolTable _ hlt).1.symm hi
    refine (hall.trans (.pageOut hout (by simp))).congr fun f => ?_
    simp only [hshared, not_false_eq_true, and_true]

/-! ### The dead task -/

/-- A dead task, with its kernel stack and its struct mapped in the directory of another. -/
structure Deceased (s : System) (z : ℕ) : Prop where
  live : z ∈ s.tasks.live
  zombie : (s.tasks.task z).state = .zombie
  created : z ≠ initTask ∧ z ≠ kthreaddTask
  elsewhere : s.tasks.current.mm.pgdir ≠ (s.tasks.task z).mm.pgdir
  stack : ∀ p < kstackPages, Mapped s.mem.paging.mem s.mem.paging.cr3 ((s.tasks.task z).kstack + p * pageSize)
  struct : Mapped s.mem.paging.mem s.mem.paging.cr3 (pageOf z)

/-- The frames behind a task: of its kernel stack, of its user half, and of the page that holds its struct alone. -/
inductive DeadFrame (L : Layout) (s : System) (z f : ℕ) : Prop
  | stack {p : ℕ} (hp : p < kstackPages)
      (hf : walk s.mem.paging.mem s.mem.paging.cr3 ((s.tasks.task z).kstack + p * pageSize) = some (f * 4096))
  | user (hf : UserFrame L s.mem.paging (s.tasks.task z).mm.pgdir f)
  | struct (halone : ∀ d ∈ s.mem.objects, d ≠ z → pageOf d ≠ pageOf z)
      (hf : walk s.mem.paging.mem s.mem.paging.cr3 (pageOf z) = some (f * 4096))

/-- These frames are given back, each from the one entry that leads to it, and no others. -/
structure Reaped (L : Layout) (z : ℕ) (s t : System) : Prop where
  freed : ∀ f, bitmapTest t.mem.paging.bitmap f = true ↔ bitmapTest s.mem.paging.bitmap f = true ∧ ¬DeadFrame L s z f
  once : ∀ f, DeadFrame L s z f → bitmapTest s.mem.paging.bitmap f = true ∧ ∃! r, Refers L s.mem.paging f r
  others : ∀ a ∈ s.tasks.live, a ≠ z → ∀ va < 0xC0000000,
    walk t.mem.paging.mem (L.pageDirectory (s.tasks.task a).mm.pgdir) va =
      walk s.mem.paging.mem (L.pageDirectory (s.tasks.task a).mm.pgdir) va
  empty : ∀ i, 0 < i → i < 768 → ¬Present (t.mem.paging.entry (L.dir (s.tasks.task z).mm.pgdir) i)

theorem mapped_frame {d va : ℕ} (hcr3 : s.cr3 = d * 4096) (hva : va % 4096 = 0) (h : Mapped s.mem s.cr3 va) :
    ∃ f, walk s.mem s.cr3 va = some (f * 4096) := by
  obtain ⟨addr, haddr⟩ := Option.isSome_iff_exists.mp h
  rw [hcr3] at haddr ⊢
  obtain ⟨-, heq⟩ := walk_eq_some.mp haddr
  rw [hva, Nat.add_zero] at heq
  exact ⟨_, heq ▸ haddr⟩

/-- Each of the frames is in use, and one entry leads to it. -/
theorem DeadFrame.once {s : System} {f : ℕ} {owner : ℕ → Owner} (h : DeadFrame L s z f) (hs : Sound L cur s.mem.paging owner)
    (hpid : pid < maxProc) (hpgdir : (s.tasks.task z).mm.pgdir = pid) (hkstack : (s.tasks.task z).kstack = kstackVa pid)
    (hpool : PoolPage (pageOf z)) : bitmapTest s.mem.paging.bitmap f = true ∧ ∃! r, Refers L s.mem.paging f r := by
  have hpage : ∀ {va : ℕ}, Paged va → ¬Scratch (pdIndex va) (ptIndex va) →
      walk s.mem.paging.mem s.mem.paging.cr3 va = some (f * 4096) → reservedFrames ≤ f ∧ ∃ r, Refers L s.mem.paging f r := by
    intro va hva hns hwalk
    obtain ⟨hpde, hpoints, howner⟩ := hs.page_at hva hns hwalk
    exact ⟨(hs.freeable (Owned.page_ne_free howner)).1, _,
      .pte hs.cur_lt hva.pdIndex_lt hpde (ptIndex_lt va) hns hpoints.present hpoints.frame⟩
  have hrefers : reservedFrames ≤ f ∧ ∃ r, Refers L s.mem.paging f r := by
    cases h with
    | @stack p hp hf =>
      rw [hkstack] at hf
      refine hpage (slot_paged hpid hp) ?_ hf
      rw [slot_pdIndex hpid hp, slot_ptIndex hpid hp]
      exact slot_not_scratch hpid hp
    | user hf =>
      rw [hpgdir] at hf
      refine ⟨?_, hf.refers hpid⟩
      have htable : ∀ {p : ℕ}, 0 < p → p < 768 → Present (s.mem.paging.entry (L.dir pid) p) →
          owner (s.mem.paging.entry (L.dir pid) p / 4096) = .table p pid := by
        intro p hp hp' hpresent
        rw [hs.owned.owner_table hpid hp (by omega) hpresent]
        exact Working.tableOf_user hp'
      cases hf with
      | table hp hp' hpresent hf =>
        rw [← hf]
        exact (hs.freeable (Owned.table_ne_free (htable hp hp' hpresent))).1
      | @page p q hp hp' hpresent hq hpte hf =>
        have hns : ¬Scratch p q := by
          intro hc
          have hindex : kstackPdeIndex = 956 := by decide
          have := (scratch_iff.mp hc).1
          omega
        have howner := hs.owned.pte _ _ _ (htable hp hp' hpresent) q hq hns hpte
        rw [← hf]
        exact (hs.freeable (Owned.page_ne_free howner)).1
    | struct halone hf => exact hpage hpool.paged (poolPage_index hpool).1.scratch hf
  obtain ⟨hlow, r, hr⟩ := hrefers
  exact hs.refers_once hlow hr

/-- The frames behind a task, where those of its stack and of its struct are known. -/
theorem deadFrame_iff {s : System} {f : ℕ} (hpgdir : (s.tasks.task z).mm.pgdir = (s.tasks.task z).pid)
    (hstack : ∀ p < kstackPages, walk s.mem.paging.mem s.mem.paging.cr3 ((s.tasks.task z).kstack + p * pageSize) = some (k p * 4096))
    (hstruct : walk s.mem.paging.mem s.mem.paging.cr3 (pageOf z) = some (g * 4096)) :
    DeadFrame L s z f ↔ ((f = k 0 ∨ f = k 1) ∨ FrameBelow s.mem.paging (L.dir (s.tasks.task z).pid) 768 f) ∨
      f = g ∧ ¬∃ d ∈ s.mem.objects.erase z, pageOf d = pageOf z := by
  refine ⟨fun hd => ?_, ?_⟩
  · cases hd with
    | @stack p hp hf =>
      have heq : f * 4096 = k p * 4096 := Option.some.inj (hf.symm.trans (hstack p hp))
      have hpages : p = 0 ∨ p = 1 := by
        simp only [kstackPages] at hp
        omega
      rcases hpages with rfl | rfl
      · exact .inl (.inl (.inl (by omega)))
      · exact .inl (.inl (.inr (by omega)))
    | user hf => exact .inl (.inr (userFrame_iff.mp (hpgdir ▸ hf)))
    | struct halone hf =>
      have heq : f * 4096 = g * 4096 := Option.some.inj (hf.symm.trans hstruct)
      refine .inr ⟨by omega, ?_⟩
      rintro ⟨d, hd, hpage⟩
      exact halone d (Finset.mem_of_mem_erase hd) (Finset.ne_of_mem_erase hd) hpage
  · rintro (((rfl | rfl) | hf) | ⟨rfl, halone⟩)
    · exact .stack (by decide) (hstack 0 (by decide))
    · exact .stack (by decide) (hstack 1 (by decide))
    · exact .user (hpgdir ▸ userFrame_iff.mpr hf)
    · exact .struct (fun d hd hne hpage => halone ⟨d, Finset.mem_erase.mpr ⟨hne, hd⟩, hpage⟩) hstruct

/-- A task that is reaped from the directory of another gives back its own memory. -/
theorem reap_releases_exactly (L : Layout) (s : System) (hs : SystemReachable L s) (z : ℕ) (hz : Deceased s z) :
    (∃ bound, ∀ fuel, bound ≤ fuel → ∃ m, releaseMemory L fuel z (s.tasks.task z) s.mem = .ok m) ∧
      ∀ fuel t, taskReap L fuel z s = .ok t → Reaped L z s t := by
  have hbacked := hs.backed
  have hmem := hbacked.mem
  obtain ⟨hrun, ledger, hpids⟩ := hs.tasks
  have hplaced := placed_run hrun
  have hroster := hpids.roster
  obtain ⟨kids, order, hk⟩ := hrun.tended
  have hcur : z ≠ s.tasks.currentTask := fun he => hz.elsewhere (by rw [he]; rfl)
  obtain ⟨hin, hpos, hother, hkstack⟩ := dead_pgdir hroster hplaced hk hz.live hz.created.1 hz.created.2 hcur
  have hpgdir : (s.tasks.task z).mm.pgdir = (s.tasks.task z).pid := by
    rcases pgdir_eq hplaced hz.live with ⟨-, hstatic⟩ | ⟨hown, -⟩
    · exact absurd hstatic (not_or.mpr hz.created)
    · exact hown
  have hlt := hmem.lt _ hin
  have hobject : z ∈ s.mem.objects := ((hbacked.structs z hz.live).resolve_left hz.created.1).resolve_left hz.created.2
  have hpool := (hmem.pooled.mapped_page (hmem.pooled.object_page hobject).1).1
  obtain ⟨owner, hsound⟩ := hmem.sound
  have hframes : ∀ p, ∃ f, p < kstackPages →
      walk s.mem.paging.mem s.mem.paging.cr3 ((s.tasks.task z).kstack + p * pageSize) = some (f * 4096) := by
    intro p
    by_cases hp : p < kstackPages
    · have haligned : ((s.tasks.task z).kstack + p * pageSize) % 4096 = 0 := by
        rw [hkstack]
        exact (slot_paged hlt hp).aligned
      obtain ⟨f, hf⟩ := mapped_frame hsound.cr3 haligned (hz.stack p hp)
      exact ⟨f, fun _ => hf⟩
    · exact ⟨0, fun hc => absurd hc hp⟩
  choose k hstack using hframes
  obtain ⟨g, hstruct⟩ := mapped_frame hsound.cr3 hpool.paged.aligned hz.struct
  obtain ⟨n, hfreed, hunique, bound, hbound⟩ := hmem.releases hobject hin hpos hother hkstack hstack hstruct
  refine ⟨⟨bound, fun fuel hfuel => ⟨n, hbound fuel hfuel⟩⟩, fun fuel t hok => ?_⟩
  obtain ⟨tasks, -, hok⟩ := bind_eq_ok.mp hok
  obtain ⟨n', hn', hok⟩ := bind_eq_ok.mp hok
  obtain rfl := Except.ok.inj hok
  obtain rfl := hunique fuel n' hn'
  refine ⟨fun f => ?_, fun f hf => ?_, fun a ha hne va hva => ?_, fun i hi hi' => ?_⟩
  · rw [deadFrame_iff hpgdir hstack hstruct]
    exact hfreed.bitmap f
  · exact hf.once hsound hlt hpgdir hkstack hpool
  · have hapart : (s.tasks.task a).mm.pgdir ≠ (s.tasks.task z).pid := by
      rcases pgdir_eq hplaced ha with ⟨hzero, -⟩ | ⟨hown, -⟩
      · rw [hzero]
        exact hpos.symm
      · rw [hown]
        exact fun he => hne (hroster.pid_inj ha hz.live he)
    exact hfreed.others _ (hmem.lt _ ⟨a, ha, rfl⟩) hapart va hva
  · rw [hpgdir]
    exact hfreed.empty i hi hi'

/-! ### A kernel task that ends -/

/-- The first kernel task is on the CPU, and `init_task` waits for it. -/
def threadOnCpu : KState :=
  (((Tasks.bootState.after startThread).after (.send initTask sigstop)).after (.tick 16)).after (.send initTask sigcont)

/-- That task has ended, and `init_task` is on the CPU again. -/
def threadEnded : KState := (threadOnCpu.after (.doExit 16 firstStruct 0)).after (.tick 16)

theorem threadOnCpu_reached (h : Reaches L m (Tasks.bootState.after startThread)) : Reaches L m threadOnCpu := by
  have hstop : KOp.Allowed (Tasks.bootState.after startThread) (.send initTask sigstop) :=
    ⟨[firstStruct, 0], by simp only [chain_cons, chain_nil]; decide +kernel, by decide⟩
  have hstopped := @Reaches.after _ _ _ (.send initTask sigstop) h trivial hstop (by decide +kernel) rfl fun _ => id
  have hticked := @Reaches.after _ _ _ (.tick 16) hstopped trivial trivial (by decide +kernel) rfl fun _ => id
  refine @Reaches.after _ _ _ (.send initTask sigcont) hticked trivial ?_ (by decide +kernel) rfl fun _ => id
  exact ⟨[firstStruct, 0], by simp only [chain_cons, chain_nil]; decide +kernel, by decide⟩

theorem threadEnded_reached (h : Reaches L m threadOnCpu) : Reaches L m threadEnded := by
  have hcpu : firstStruct = threadOnCpu.currentTask := by decide +kernel
  have hlisted : Listed threadOnCpu firstStruct :=
    ⟨[firstStruct, 0], by simp only [chain_cons, chain_nil]; decide +kernel, by decide⟩
  have hended := @Reaches.after _ _ _ (.doExit 16 firstStruct 0) h hcpu hlisted (by decide +kernel) rfl fun _ => id
  exact @Reaches.after _ _ _ (.tick 16) hended trivial trivial (by decide +kernel) rfl fun _ => id

theorem threadEnded_reaped (bound : ℕ) : ∃ fuel t, bound ≤ fuel ∧ Tasks.taskReap fuel firstStruct threadEnded = .ok t := by
  have hparent : (threadEnded.task firstStruct).parent = some kthreaddTask := by decide +kernel
  have hchildren : PointerChain.Chain threadEnded.sibling (threadEnded.task kthreaddTask).children [firstStruct] := by
    simp only [chain_cons, chain_nil]
    decide +kernel
  have hlisted : PointerChain.Chain threadEnded.next threadEnded.taskListHead [firstStruct, 0] := by
    simp only [chain_cons, chain_nil]
    decide +kernel
  obtain ⟨t, ht⟩ := @taskReap_returns _ _ _ (max bound 3) _ _ hchildren hparent hlisted
    (lt_of_lt_of_le (by decide) (le_max_right _ _)) (lt_of_lt_of_le (by decide) (le_max_right _ _))
  exact ⟨_, t, le_max_left _ _, ht⟩

/-- The first kernel task is reaped. -/
theorem reap_releases_exactly_thread : ∃ s fuel t, SystemReachable sampleLayout s ∧ Deceased s firstStruct ∧
    taskReap sampleLayout fuel firstStruct s = .ok t ∧ Reaped sampleLayout firstStruct s t := by
  obtain ⟨m, hreachable, -, -, hmapped⟩ := startThread_reachable
  obtain ⟨r, hended⟩ := threadEnded_reached (threadOnCpu_reached ⟨m.paging.cr3, hreachable⟩)
  obtain ⟨n, hn⟩ : ∃ n, m.withPaging { m.paging with cr3 := r } = n := ⟨_, rfl⟩
  have hmem : n.paging.mem = m.paging.mem := by
    rw [← hn]
    rfl
  rw [hn] at hended
  have hcr3 : n.paging.cr3 = sampleLayout.dir 0 * 4096 := by
    have hcurrent : threadEnded.current.mm.pgdir = 0 := by decide +kernel
    obtain ⟨owner, hs⟩ := hended.backed.mem.sound
    have hdir := hs.cr3
    dsimp only at hdir
    rw [hcurrent] at hdir
    exact hdir
  have hmaps : ∀ {va : ℕ}, Maps m.paging (sampleLayout.dir 0) (pdIndex va) (ptIndex va) → Mapped n.paging.mem n.paging.cr3 va := by
    intro va h
    rw [hcr3, hmem]
    exact mapped_dir.mpr h
  have hdead : Deceased ⟨threadEnded, n⟩ firstStruct := by
    have helsewhere : threadEnded.current.mm.pgdir ≠ (threadEnded.task firstStruct).mm.pgdir := by decide +kernel
    constructor
    case live =>
      dsimp only
      decide +kernel
    case zombie =>
      dsimp only
      decide +kernel
    case created => exact ⟨by decide, by decide⟩
    case elsewhere =>
      dsimp only
      exact helsewhere
    case stack =>
      intro p hp
      apply hmaps
      have hkstack : (threadEnded.task firstStruct).kstack = kstackVa 3 := by decide +kernel
      have hindex := slot_pdIndex (show 3 < maxProc by decide) hp
      have hentry := slot_ptIndex (show 3 < maxProc by decide) hp
      dsimp only
      rw [hkstack, hindex, hentry]
      exact hmapped.stack p hp
    case struct =>
      apply hmaps
      have hpage : pageOf firstStruct = Kmalloc.kcpoolVirtBase := by decide
      rw [hpage]
      exact hmapped.struct
  obtain ⟨⟨bound, hbound⟩, hreaped⟩ := reap_releases_exactly sampleLayout _ hended _ hdead
  obtain ⟨fuel, tasks, hle, htasks⟩ := threadEnded_reaped bound
  obtain ⟨mem, hreleased⟩ := hbound fuel hle
  have hok : taskReap sampleLayout fuel firstStruct ⟨threadEnded, n⟩ = .ok ⟨tasks, mem⟩ := by
    unfold taskReap
    rw [htasks, ok_bind, hreleased]
    rfl
  exact ⟨_, fuel, _, hended, hdead, hok, hreaped fuel _ hok⟩

end HekaOS.TaskMemory
