import HekaOS.UserImage

/-!
# Where the kernel half is mapped

Which pages of the kernel half some directory maps. The calls of `paging.c` add none but the page
that `alloc_page` is asked for, so that a zone that nobody asks for stays unmapped under every directory.
-/

namespace HekaOS.Paging
open MachineWord KernelMemory KernelTriples ByteMemory PageWalk WordBitmap PhysPageFrame AddressMap
open Tasks (maxProc pageSize)

variable {L : Layout} {s t u : PagingState} {owner : ℕ → Owner} {A B : Set (ℕ × ℕ)} {T : Finset ℕ}
  {child cur d f g i j K p pid q va flags : ℕ}

/-- A page of the kernel half that is no scratch page, by its two indices. -/
structure KernelIndex (p q : ℕ) : Prop where
  low : 768 ≤ p
  high : p < 1023
  entry : q < 1024
  scratch : ¬Scratch p q

/-- Some directory maps the page. -/
def Somewhere (L : Layout) (s : PagingState) (p q : ℕ) : Prop := ∃ pid < maxProc, Maps s (L.dir pid) p q

/-- In the kernel half, what is mapped somewhere was mapped somewhere before, or is among the pages `A`. -/
def Adds (L : Layout) (A : Set (ℕ × ℕ)) (s t : PagingState) : Prop :=
  ∀ p q, KernelIndex p q → Somewhere L t p q → Somewhere L s p q ∨ (p, q) ∈ A

namespace Adds

theorem refl (L : Layout) (s : PagingState) : Adds L ∅ s s := fun _ _ _ h => .inl h

theorem trans (h : Adds L A s t) (h' : Adds L B t u) : Adds L (A ∪ B) s u := by
  intro p q hk hu
  rcases h' p q hk hu with ht | hB
  · exact (h p q hk ht).imp_right .inl
  · exact .inr (.inr hB)

theorem mono (h : Adds L A s t) (hAB : A ⊆ B) : Adds L B s t := fun p q hk ht => (h p q hk ht).imp_right (hAB ·)

/-- Nothing is added before or behind a call that adds `A`. -/
theorem then_none (h : Adds L A s t) (h' : Adds L ∅ t u) : Adds L A s u := by
  have hboth := h.trans h'
  rw [Set.union_empty] at hboth
  exact hboth

/-- Each entry of the kernel half is one that a directory had before, or leads to a table that maps
nothing outside `A`. -/
theorem of_tables
    (hpde : ∀ pid < maxProc, ∀ i, 768 ≤ i → i < 1023 → Present (t.entry (L.dir pid) i) →
      (∃ pid' < maxProc, t.entry (L.dir pid) i = s.entry (L.dir pid') i) ∨
        ∀ q < 1024, (i, q) ∉ A → ¬Present (t.entry (t.entry (L.dir pid) i / 4096) q))
    (hpte : ∀ pid < maxProc, ∀ i, 768 ≤ i → i < 1023 → Present (s.entry (L.dir pid) i) → ∀ q < 1024, ¬Scratch i q →
      (i, q) ∉ A → Present (t.entry (s.entry (L.dir pid) i / 4096) q) →
        t.entry (s.entry (L.dir pid) i / 4096) q = s.entry (s.entry (L.dir pid) i / 4096) q) :
    Adds L A s t := by
  intro p q hk ⟨pid, hpid, hpresent, hmaps⟩
  by_cases hA : (p, q) ∈ A
  · exact .inr hA
  left
  rcases hpde pid hpid p hk.low hk.high hpresent with ⟨pid', hpid', hsame⟩ | hnew
  · rw [hsame] at hpresent hmaps
    rw [hpte pid' hpid' p hk.low hk.high hpresent q hk.entry hk.scratch hA hmaps] at hmaps
    exact ⟨pid', hpid', hpresent, hmaps⟩
  · exact absurd hmaps (hnew q hk.entry hA)

theorem of_kept (hpde : ∀ pid < maxProc, ∀ i, 768 ≤ i → i < 1023 → t.entry (L.dir pid) i = s.entry (L.dir pid) i)
    (hpte : ∀ pid < maxProc, ∀ i, 768 ≤ i → i < 1023 → Present (s.entry (L.dir pid) i) → ∀ q < 1024, ¬Scratch i q →
      (i, q) ∉ A → Present (t.entry (s.entry (L.dir pid) i / 4096) q) →
        t.entry (s.entry (L.dir pid) i / 4096) q = s.entry (s.entry (L.dir pid) i / 4096) q) :
    Adds L A s t :=
  of_tables (fun pid hpid i h₁ h₂ _ => .inl ⟨pid, hpid, hpde pid hpid i h₁ h₂⟩) hpte

end Adds

namespace Sound

theorem kernelTable (h : Sound L cur s owner) (hpid : pid < maxProc) (hi : 768 ≤ i) (hi' : i < 1023)
    (hpresent : Present (s.entry (L.dir pid) i)) : owner (s.entry (L.dir pid) i / 4096) = tableOf 0 i := by
  rw [h.owned.owner_table hpid (by omega) hi' hpresent]
  exact tableOf_kernel hi

/-- A frame that holds no page table of the kernel half is stored to. -/
theorem adds_within (h : Sound L cur s owner) (hw : Within g s t) (hdir : ∀ pid < maxProc, L.dir pid ≠ g)
    (htable : ∀ i, 768 ≤ i → owner g ≠ tableOf 0 i) : Adds L ∅ s t := by
  refine Adds.of_kept (fun pid hpid i _ hi' => hw.entry (hdir pid hpid) (by omega))
    fun pid hpid i hi hi' hpresent q hq _ _ _ => hw.entry ?_ hq
  intro he
  exact htable i hi (he ▸ h.kernelTable hpid hi hi' hpresent)

/-- Only entries of one page table of the kernel half are stored to. -/
theorem adds_table (h : Sound L cur s owner) (hK : owner K = tableOf cur p)
    (hmem : ∀ a, a / 4096 ≠ K → t.mem a = s.mem a)
    (hothers : ∀ j < 1024, (p, j) ∉ A → ¬Scratch p j → Present (t.entry K j) → t.entry K j = s.entry K j) : Adds L A s t := by
  have hKfree := Owned.owner_ne_free hK
  refine Adds.of_kept (fun pid hpid i _ hi' => entry_congr hmem (h.owned.ne_dir hKfree hpid).symm (by omega))
    fun pid hpid i hi hi' hpresent q hq hscratch hA hpte => ?_
  have hown := h.kernelTable hpid hi hi' hpresent
  generalize s.entry (L.dir pid) i / 4096 = X at hown hpte ⊢
  by_cases hX : X = K
  · subst hX
    rw [hK] at hown
    obtain rfl := (Owner.table.inj hown).1
    exact hothers q hq hA hscratch hpte
  · exact entry_congr hmem hX hq

theorem adds_same (h : t.mem = s.mem) : Adds L ∅ s t := by
  have hentry : ∀ f j, t.entry f j = s.entry f j := by
    intro f j
    unfold PagingState.entry
    rw [h]
  exact Adds.of_kept (fun _ _ _ _ _ => hentry _ _) fun _ _ _ _ _ _ _ _ _ _ _ => hentry _ _

/-- A new page table maps nothing. -/
theorem withNewPt_adds (h : Sound L cur s owner) (hg : NewFrame s.bitmap g) (hva : Paged va) (flags : ℕ) :
    Adds L ∅ s (Window.withNewPt s (L.dir cur) g va flags) := by
  have hp : pdIndex va < 1024 := hva.pdIndex_lt.trans (by decide)
  have hlow := h.owned.newFrame_ge hg
  have hfree := h.owned.newFrame_owner hg
  have hnew := withNewPt_pde (L := L) s flags h.cur_lt hlow hg.lt hp
  have hsame : ∀ pid < maxProc, ∀ i < 1024, ¬(pid = cur ∧ i = pdIndex va) →
      (Window.withNewPt s (L.dir cur) g va flags).entry (L.dir pid) i = s.entry (L.dir pid) i :=
    fun pid hpid i hi hne => withNewPt_entry hlow hpid hi hne hp
  have hempty : ∀ q < 1024, (Window.withNewPt s (L.dir cur) g va flags).entry g q = 0 := fun q hq => entry_clearTable hq
  have hother : ∀ e ≠ g, e ≠ L.dir cur → ∀ q < 1024,
      (Window.withNewPt s (L.dir cur) g va flags).entry e q = s.entry e q := by
    intro e heg hed q hq
    rw [Window.withNewPt, within_clearTable.entry heg hq]
    exact PagingState.entry_setEntry_of_ne hp hq fun he => hed he.1
  refine Adds.of_tables (fun pid hpid i hi hi' _ => ?_) fun pid hpid i hi hi' hpde q hq _ _ _ => ?_
  · by_cases hat : pid = cur ∧ i = pdIndex va
    · obtain ⟨rfl, rfl⟩ := hat
      right
      intro q hq _
      rw [hnew.frame, hempty q hq]
      decide
    · exact .inl ⟨pid, hpid, hsame pid hpid i (by omega) hat⟩
  · have hown := h.kernelTable hpid hi hi' hpde
    refine hother _ (fun he => ?_) (h.owned.ne_dir (Owned.owner_ne_free hown) h.cur_lt) q hq
    rw [he, hfree] at hown
    cases hown

/-- `map_page` of a frame that no table is in. -/
theorem mapPage_adds (h : Sound L cur s owner) (hva : Paged va) (f : ℕ) :
    Ensures (mapPage (f * 4096) va flags s) (Adds L {(pdIndex va, ptIndex va)} s) := by
  -- the entry of the page is the only one of its table to change
  have hentry : ∀ {t : PagingState} {owner' : ℕ → Owner} {K v : ℕ}, Sound L cur t owner' →
      owner' K = tableOf cur (pdIndex va) → Adds L {(pdIndex va, ptIndex va)} t (t.setEntry K (ptIndex va) v) := by
    intro t owner' K v ht hown
    refine ht.adds_table hown (fun a ha => (within_setEntry (ptIndex_lt va)).mem a ha) fun j hj hA _ _ => ?_
    exact PagingState.entry_setEntry_of_ne (ptIndex_lt va) hj fun he => hA (by rw [he.2]; rfl)
  refine h.homed.mapPage_windowed hva.word (Nat.mul_mod_left f 4096) hva.aligned fun hwindow => ?_
  by_cases hpresent : Present (s.entry (L.dir cur) (pdIndex va))
  · have hown := h.owned.owner_table h.cur_lt hva.pdIndex_pos hva.pdIndex_lt hpresent
    rw [hwindow.mapPage_present hva.word hva.aligned hpresent (h.owned.ne_dir (Owned.owner_ne_free hown) h.cur_lt)]
    exact ensures_ok (hentry h hown)
  · have hdused := h.owned.reserved (L.dir cur) (dir_lt h.cur_lt)
    rcases hwindow.mapPage_absent hva.word hva.aligned hva.pdIndex_lt.ne hpresent hdused f with
      ⟨-, hmap⟩ | ⟨g, hg, -, hmap⟩
    · rw [hmap]
      exact ensures_ok ((Adds.refl L s).mono (Set.empty_subset _))
    · rw [hmap]
      have hpage := hentry (v := f * 4096 ||| (flags &&& 0xFFF) ||| 0x01) (h.withNewPt hg hva flags)
        (Function.update_self _ _ _)
      exact ensures_ok (((h.withNewPt_adds hg hva flags).trans hpage).mono (Set.union_subset (Set.empty_subset _) subset_rfl))

theorem allocPage_adds (h : Sound L cur s owner) (hva : Paged va) (flags : ℕ) :
    Ensures (Paging.allocPage va flags s) fun r => Adds L {(pdIndex va, ptIndex va)} s r.2 := by
  unfold Paging.allocPage
  dsimp only
  rcases allocFrame_cases s.bitmap with hnull | ⟨f, hf, hr⟩
  · rw [if_pos hnull]
    exact ensures_ok ((Adds.refl L s).mono (Set.empty_subset _))
  · rw [hr, if_neg (frame_ne_zero (h.owned.newFrame_ge hf))]
    refine ((h.mark f).mapPage_adds hva f).bind fun t ht => ?_
    have hadds : Adds L {(pdIndex va, ptIndex va)} s t := ht
    refine Ensures.bind (Q := fun _ => True) (fun _ _ => trivial) fun phys _ => ?_
    split
    · exact ensures_ok (hadds.then_none (adds_same rfl))
    · exact ensures_ok hadds

theorem freePage_adds (h : Sound L cur s owner) (hva : Paged va) : Ensures (Paging.freePage va s) (Adds L ∅ s) := by
  unfold Paging.freePage
  refine Ensures.bind (Q := fun _ => True) (fun _ _ => trivial) fun phys _ => ?_
  split
  · exact ensures_ok (.refl L s)
  · refine h.homed.unmapPage_windowed hva.word hva.aligned (Q := Adds L ∅ s) (fun hwindow => ?_) |>.bind fun t ht => ?_
    · rw [hwindow.unmapPage_eq hva.word hva.aligned]
      refine ensures_ok ?_
      split
      · rename_i hmaps
        have hown := h.owned.owner_table h.cur_lt hva.pdIndex_pos hva.pdIndex_lt hmaps.1
        refine h.adds_table hown (fun a ha => (within_setEntry (ptIndex_lt va)).mem a ha) fun j hj _ _ hpresent => ?_
        refine PagingState.entry_setEntry_of_ne (ptIndex_lt va) hj fun he => ?_
        rw [he.2, PagingState.entry_setEntry_self (by decide)] at hpresent
        exact absurd hpresent (by decide)
      · exact .refl L s
    · exact ensures_ok (ht.then_none (adds_same rfl))

/-- A new directory maps what `page_directories[0]` does. -/
theorem procInit_adds (h : Sound L cur s owner) (hpid : pid < maxProc) : Adds L ∅ s (pagingProcInit L pid s) := by
  have hw := pagingProcInit_within L pid s
  refine Adds.of_tables (fun pid' hpid' i hi hi' hpresent => ?_) fun pid' hpid' i hi hi' hpde q hq _ _ _ => ?_
  · left
    by_cases hat : pid' = pid
    · subst hat
      by_cases hzero : pid' = 0
      · subst hzero
        rw [pagingProcInit_zero (by omega), if_neg (by omega)] at hpresent
        exact absurd hpresent (by decide)
      · refine ⟨0, by decide, ?_⟩
        rw [pagingProcInit_entry hpid hzero (by omega), if_pos rfl, procEntry, if_neg (by omega), if_pos (.inl hi)]
    · exact ⟨pid', hpid', hw.entry (fun he => hat (dir_inj he)) (by omega)⟩
  · have hown := h.kernelTable hpid' hi hi' hpde
    exact hw.entry (h.owned.ne_dir (Owned.owner_ne_free hown) hpid) hq

/-- A call on another directory maps no page in the page table of the kernel stacks but for the scratch
pages, and gives that directory entries of others. -/
theorem adds_foreign (h : Sound L cur s owner) (hK : owner K = tableOf cur kstackPdeIndex) (hchild : child < maxProc)
    (hkept : ∀ a, InUse s (a / 4096) → a / 4096 ∉ ({K, L.dir child} : Set ℕ) → t.mem a = s.mem a)
    (hentry : ∀ j < 1024, ¬Scratch kstackPdeIndex j → Present (t.entry K j) → t.entry K j = s.entry K j)
    (hpde : ∀ i, 768 ≤ i → i < 1023 → ∃ pid < maxProc, t.entry (L.dir child) i = s.entry (L.dir pid) i) :
    Adds L ∅ s t := by
  have hKfree := Owned.owner_ne_free hK
  have hsame : ∀ f, InUse s f → f ∉ ({K, L.dir child} : Set ℕ) → ∀ j < 1024, t.entry f j = s.entry f j :=
    fun f hf hout j hj => PagingState.entry_of_mem (fun a ha => hkept a (ha ▸ hf) (ha ▸ hout)) hj
  refine Adds.of_tables (fun pid hpid i hi hi' _ => .inl ?_) fun pid hpid i hi hi' hpresent q hq hns _ hpte => ?_
  · by_cases hat : pid = child
    · subst hat
      exact hpde i hi hi'
    · refine ⟨pid, hpid, hsame _ (h.owned.reserved _ (dir_lt hpid)) ?_ i (by omega)⟩
      rintro (he | he)
      · exact h.owned.ne_dir hKfree hpid he.symm
      · exact hat (dir_inj he)
  · have hown := h.kernelTable hpid hi hi' hpresent
    have hXfree := Owned.owner_ne_free hown
    generalize s.entry (L.dir pid) i / 4096 = X at hown hXfree hpte ⊢
    by_cases hX : X = K
    · subst hX
      rw [hK] at hown
      obtain rfl := (Owner.table.inj hown).1
      exact hentry q hq hns hpte
    · refine hsame X (h.owned.used X hXfree).2.2 ?_ q hq
      rintro (he | he)
      · exact hX he
      · exact h.owned.ne_dir hXfree hchild he

end Sound

end HekaOS.Paging
