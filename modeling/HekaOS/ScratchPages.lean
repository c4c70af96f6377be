import HekaOS.FrameOwnership

/-!
# Foreign tables on the scratch pages

The calls that work on another process mount its tables and pages on the two scratch pages of the
current directory. Their entries are in the page table of the kernel stacks, which is present, and
are no part of the ledger.
-/

namespace HekaOS.Paging
open MachineWord KernelMemory KernelTriples ByteMemory PageWalk WordBitmap PhysPageFrame AddressMap
open Tasks (maxProc pageSize)

variable {α : Type} {Q : α → Prop} {L : Layout} {base s t : PagingState} {owner : ℕ → Owner} {o : Owner}
  {cur f g i j K p pid v va va' flags : ℕ}

/-- `page_directories[cur]` is the current directory, and its last entry leads to no other one. -/
structure Homed (L : Layout) (cur : ℕ) (s : PagingState) : Prop where
  cr3 : s.cr3 = L.pageDirectory cur
  self : Present (s.entry (L.dir cur) 1023) → s.entry (L.dir cur) 1023 / 4096 = L.dir cur

namespace Homed

theorem window (h : Homed L cur s) (hpresent : Present (s.entry (L.dir cur) 1023)) : Window s (L.dir cur) :=
  ⟨h.cr3, hpresent, h.self hpresent⟩

/-- Under a directory without the recursive entry, the first access through the window faults. -/
theorem read_fault (h : Homed L cur s) (habsent : ¬Present (s.entry (L.dir cur) 1023)) (hp : p < 1024) :
    s.read (recursivePdBase + 4 * p) = kpanic "page fault" := by
  have hpd : pdIndex (recursivePdBase + 4 * p) = 1023 := by
    unfold pdIndex recursivePdBase
    omega
  have hentry : load32 s.mem (s.cr3 + 4 * 1023) = s.entry (L.dir cur) 1023 := by
    rw [h.cr3]
    rfl
  unfold PagingState.read PagingState.translate walk
  rw [hpd, hentry, if_neg habsent]
  rfl

/-- A call that starts at the window may be taken to find it. -/
theorem windowed {x : ℕ → Kernel α} (h : Homed L cur s) (hp : p < 1024)
    (hx : Window s (L.dir cur) → Ensures (s.read (recursivePdBase + 4 * p) >>= x) Q) :
    Ensures (s.read (recursivePdBase + 4 * p) >>= x) Q := by
  by_cases hpresent : Present (s.entry (L.dir cur) 1023)
  · exact hx (h.window hpresent)
  · rw [h.read_fault hpresent hp]
    exact ensures_error _

theorem mapPage_windowed {phys : ℕ} {Q : PagingState → Prop} (h : Homed L cur s) (hva : va < wordSize)
    (hphys : phys % 4096 = 0) (haligned : va % 4096 = 0)
    (hx : Window s (L.dir cur) → Ensures (mapPage phys va flags s) Q) : Ensures (mapPage phys va flags s) Q := by
  unfold mapPage at hx ⊢
  have hguard : ¬(phys &&& 0xFFF ≠ 0 ∨ va &&& 0xFFF ≠ 0) := by
    rw [and_offset, and_offset, haligned, hphys]
    simp
  rw [if_neg hguard] at hx ⊢
  exact h.windowed (pdIndex_lt hva) hx

theorem unmapPage_windowed {Q : PagingState → Prop} (h : Homed L cur s) (hva : va < wordSize)
    (haligned : va % 4096 = 0) (hx : Window s (L.dir cur) → Ensures (unmapPage va s) Q) :
    Ensures (unmapPage va s) Q := by
  unfold unmapPage at hx ⊢
  have hguard : ¬va &&& 0xFFF ≠ 0 := by
    rw [and_offset, haligned]
    simp
  rw [if_neg hguard] at hx ⊢
  exact h.windowed (pdIndex_lt hva) hx

theorem getPhysaddr_windowed {Q : ℕ → Prop} (h : Homed L cur s) (hva : va < wordSize)
    (hx : Window s (L.dir cur) → Ensures (getPhysaddr va s) Q) : Ensures (getPhysaddr va s) Q := by
  unfold getPhysaddr at hx ⊢
  exact h.windowed (pdIndex_lt hva) hx

end Homed

/-- The ledger covers the tables, and `page_directories[cur]` is the current directory. -/
structure Sound (L : Layout) (cur : ℕ) (s : PagingState) (owner : ℕ → Owner) : Prop where
  owned : Owned L s.entry s.bitmap owner
  cur_lt : cur < maxProc
  cr3 : s.cr3 = L.pageDirectory cur

theorem Sound.homed (h : Sound L cur s owner) : Homed L cur s :=
  ⟨h.cr3, fun hpresent => (h.owned.pde cur h.cur_lt 1023 (by decide) hpresent).self rfl⟩

/-- The directories agree on the kernel half. -/
def KernelKept (L : Layout) (s t : PagingState) : Prop :=
  ∀ pid < maxProc, ∀ i, 768 ≤ i → i < 1024 → t.entry (L.dir pid) i = s.entry (L.dir pid) i

theorem KernelKept.trans {u : PagingState} (h₁ : KernelKept L s t) (h₂ : KernelKept L t u) : KernelKept L s u :=
  fun pid hpid i h768 hi => (h₂ pid hpid i h768 hi).trans (h₁ pid hpid i h768 hi)

/-- In the course of a call on another directory: the page table of the kernel stacks is in frame `K`,
and the kernel half of every directory is as it was in `base`. -/
structure Working (L : Layout) (cur K : ℕ) (base s : PagingState) (owner : ℕ → Owner) : Prop extends
    Sound L cur s owner where
  present : Present (s.entry (L.dir cur) kstackPdeIndex)
  kstack : s.entry (L.dir cur) kstackPdeIndex / 4096 = K
  kept : KernelKept L base s

/-- Only the entry of a scratch page differs. -/
structure Remounted (K va : ℕ) (s t : PagingState) : Prop where
  within : Within K s t
  other : ∀ j < 1024, j ≠ ptIndex va → t.entry K j = s.entry K j

theorem remounted_setEntry : Remounted K va s (s.setEntry K (ptIndex va) v) :=
  ⟨within_setEntry (ptIndex_lt va), fun _ hj hne =>
    PagingState.entry_setEntry_of_ne (ptIndex_lt va) hj fun he => hne he.2⟩

theorem Remounted.refl (K va : ℕ) (s : PagingState) : Remounted K va s s := ⟨.refl K s, fun _ _ _ => rfl⟩

namespace Working

theorem start (h : Sound L cur s owner) (hpresent : Present (s.entry (L.dir cur) kstackPdeIndex)) :
    Working L cur (s.entry (L.dir cur) kstackPdeIndex / 4096) s s owner :=
  ⟨h, hpresent, rfl, fun _ _ _ _ _ => rfl⟩

theorem owner_kstack (h : Working L cur K base s owner) : owner K = tableOf cur kstackPdeIndex := by
  have hleads := h.owned.pde cur h.cur_lt kstackPdeIndex (by decide) h.present
  rw [h.kstack] at hleads
  exact hleads.table (by decide) (by decide)

theorem kstack_ne_free (h : Working L cur K base s owner) : owner K ≠ .free := Owned.table_ne_free h.owner_kstack

theorem dir_ne_kstack (h : Working L cur K base s owner) (hpid : pid < maxProc) : L.dir pid ≠ K :=
  (h.owned.ne_dir h.kstack_ne_free hpid).symm

/-- The directories are as they were, and so is what the ledger says. -/
theorem congr {owner' : ℕ → Owner} (h : Working L cur K base s owner) (hcr3 : t.cr3 = s.cr3)
    (hdir : ∀ pid < maxProc, ∀ i, 768 ≤ i → i < 1024 → t.entry (L.dir pid) i = s.entry (L.dir pid) i)
    (howned : Owned L t.entry t.bitmap owner') : Working L cur K base t owner' := by
  have hkstack := hdir cur h.cur_lt kstackPdeIndex (by decide) (by decide)
  refine ⟨⟨howned, h.cur_lt, hcr3.trans h.cr3⟩, ?_, ?_, h.kept.trans hdir⟩
  · rw [hkstack]
    exact h.present
  · rw [hkstack]
    exact h.kstack

theorem within (h : Working L cur K base s owner) (hw : Within g s t) (hlow : reservedFrames ≤ g)
    (hg : ∀ i pid, owner g ≠ .table i pid) : Working L cur K base t owner := by
  refine h.congr hw.cr3 (fun pid hpid i _ hi => hw.entry ?_ hi) ?_
  · exact fun he => absurd (dir_lt (L := L) hpid) (Nat.not_lt.mpr (he ▸ hlow))
  · rw [hw.bitmap]
    exact h.owned.within hw hlow hg

theorem remount (h : Working L cur K base s owner) (hva : ScratchVa va) (hr : Remounted K va s t) :
    Working L cur K base t owner := by
  have hscratch : Scratch kstackPdeIndex (ptIndex va) := by
    rcases hva with rfl | rfl
    · exact ⟨_, .inl rfl, rfl, rfl⟩
    · exact ⟨_, .inr rfl, rfl, rfl⟩
  refine h.congr hr.within.cr3 (fun pid hpid i _ hi => hr.within.entry (h.dir_ne_kstack hpid) hi) ?_
  rw [hr.within.bitmap]
  apply h.owned.edit (f := K) (j := ptIndex va)
  · intro f' j' hj' hne
    by_cases hf' : f' = K
    · subst hf'
      exact hr.other j' hj' fun he => hne ⟨rfl, he⟩
    · exact hr.within.entry hf' hj'
  · exact h.owned.ne_fpt h.kstack_ne_free
  · intro pid hpid he
    exact absurd he.symm (h.dir_ne_kstack hpid)
  · intro i pid hi hns
    obtain ⟨rfl, -⟩ := Owner.table.inj (h.owner_kstack.symm.trans hi)
    exact absurd hscratch hns

theorem scratch_word (hva : ScratchVa va) : va < wordSize := by
  rcases hva with rfl | rfl <;> decide

theorem scratch_aligned (hva : ScratchVa va) : va % 4096 = 0 := by
  rcases hva with rfl | rfl <;> decide

theorem scratch_pdIndex (hva : ScratchVa va) : pdIndex va = kstackPdeIndex := by
  rcases hva with rfl | rfl <;> decide

/-- A frame is mounted on a scratch page. -/
theorem mount (h : Working L cur K base s owner) (hva : ScratchVa va) (hf : f < 2 ^ 20) (flags : ℕ) :
    Ensures (mapPage (f * 4096) va flags s) fun t => Remounted K va s t ∧ Shows t (L.dir cur) K va f := by
  have hword := scratch_word hva
  have haligned := scratch_aligned hva
  have hindex := scratch_pdIndex hva
  refine h.homed.mapPage_windowed hword (Nat.mul_mod_left f 4096) haligned fun hwindow => ?_
  have hpresent : Present (s.entry (L.dir cur) (pdIndex va)) := by
    rw [hindex]
    exact h.present
  have hK : s.entry (L.dir cur) (pdIndex va) / 4096 = K := by
    rw [hindex]
    exact h.kstack
  have hne : L.dir cur ≠ K := h.dir_ne_kstack h.cur_lt
  have hpoints := points_pte hf flags
  rw [hwindow.mapPage_present hword haligned hpresent (by rw [hK]; exact hne.symm), hK]
  have hr : Remounted K va s (s.setEntry K (ptIndex va) (f * 4096 ||| (flags &&& 0xFFF) ||| 0x01)) :=
    remounted_setEntry
  have hself := PagingState.entry_setEntry_self (s := s) (f := K) (j := ptIndex va) hpoints.word
  refine ensures_ok ⟨hr, ?_⟩
  have hpde := hr.within.entry hne (pdIndex_lt hword)
  refine ⟨h.cr3, haligned, hword, ?_, ?_, ?_, ?_⟩
  · rw [hpde]
    exact hpresent
  · rw [hpde]
    exact hK
  · rw [hself]
    exact hpoints.present
  · rw [hself]
    exact hpoints.frame

theorem unmount (h : Working L cur K base s owner) (hva : ScratchVa va) :
    Ensures (unmapPage va s) fun t => Remounted K va s t := by
  refine h.homed.unmapPage_windowed (scratch_word hva) (scratch_aligned hva) fun hwindow => ?_
  rw [hwindow.unmapPage_eq (scratch_word hva) (scratch_aligned hva), scratch_pdIndex hva, h.kstack]
  split
  · exact ensures_ok remounted_setEntry
  · exact ensures_ok (.refl K va s)

/-- The other scratch page still shows what it did. -/
theorem shows_remount (h : Working L cur K base s owner) (hshows : Shows s (L.dir cur) K va g)
    (hr : Remounted K va' s t) (hne : ptIndex va ≠ ptIndex va') : Shows t (L.dir cur) K va g :=
  hshows.congr hr.within.cr3 (hr.within.entry (h.dir_ne_kstack h.cur_lt) (pdIndex_lt hshows.word))
    (hr.other _ (ptIndex_lt va) hne)

/-- A scratch page shows what it did after a store to a frame that is neither a directory nor the
table of the kernel stacks. -/
theorem shows_within (h : Working L cur K base s owner) (hshows : Shows s (L.dir cur) K va f)
    (hw : Within g s t) (hlow : reservedFrames ≤ g) (hK : K ≠ g) : Shows t (L.dir cur) K va f := by
  refine hshows.within hw ?_ hK
  intro he
  exact absurd (dir_lt (L := L) h.cur_lt) (Nat.not_lt.mpr (he ▸ hlow))

/-- `phys_alloc_frame` takes a frame that serves as nothing. -/
theorem alloc (h : Working L cur K base s owner) (hg : NewFrame s.bitmap g) :
    Working L cur K base { s with bitmap := bitmapSet s.bitmap g } owner ∧ owner g = .free ∧ reservedFrames ≤ g :=
  ⟨h.congr rfl (fun _ _ _ _ _ => rfl) (h.owned.mark g), h.owned.clear hg.clear, h.owned.newFrame_ge hg⟩

theorem setPte (h : Working L cur K base s owner) (hf : owner f = .table i pid) (hj : j < 1024)
    (hv : v < wordSize) (hpage : ¬Scratch i j → Present v → owner (v / 4096) = .page f j) :
    Working L cur K base (s.setEntry f j v) owner := by
  have hfree := Owned.table_ne_free hf
  refine h.congr rfl (fun pid hpid i _ hi => ?_) (h.owned.setPte hf hj hv hpage)
  exact PagingState.entry_setEntry_of_ne hj hi fun he => h.owned.ne_dir hfree hpid he.1.symm

/-- An entry of the user half of a directory is set. -/
theorem setPde (h : Working L cur K base s owner) (hpid : pid < maxProc) (hi : i < 768) (hv : v < wordSize)
    (hleads : Present v → Leads L owner pid i (v / 4096)) :
    Working L cur K base (s.setEntry (L.dir pid) i v) owner := by
  refine h.congr rfl (fun pid' hpid' i' h768 hi' => ?_) (h.owned.setPde hpid (by omega) hv hleads)
  exact PagingState.entry_setEntry_of_ne (by omega) hi' fun he => absurd he.2 (by omega)

theorem enter (h : Working L cur K base s owner) (hfree : owner g = .free) (hlow : reservedFrames ≤ g)
    (hlt : g < physTotalFrames) (hused : bitmapTest s.bitmap g = true)
    (hempty : ∀ i pid, o = .table i pid → ∀ j < 1024, ¬Present (s.entry g j)) :
    Working L cur K base s (Function.update owner g o) :=
  h.congr rfl (fun _ _ _ _ _ => rfl) (h.owned.enter hfree hlow hlt hused hempty)

end Working

end HekaOS.Paging
