import HekaOS.ScratchPages

/-!
# `alloc_page` and `free_page`

What the two calls do to the ledger of frames, to the directories, and to the set of pages that the
current directory maps.
-/

namespace HekaOS.Paging
open MachineWord KernelMemory KernelTriples ByteMemory PageWalk WordBitmap PhysPageFrame AddressMap
open Tasks (maxProc pageSize)

variable {L : Layout} {s t : PagingState} {owner : ℕ → Owner} {cur d f g i j K p q pid v va flags : ℕ}

/-- The directory in frame `d` maps the page of entry `q` in its page table `p`. -/
def Maps (s : PagingState) (d p q : ℕ) : Prop := Present (s.entry d p) ∧ Present (s.entry (s.entry d p / 4096) q)

theorem mapped_iff (hcr3 : s.cr3 = d * 4096) : Mapped s.mem s.cr3 va ↔ Maps s d (pdIndex va) (ptIndex va) := by
  have hpde : load32 s.mem (s.cr3 + 4 * pdIndex va) = s.entry d (pdIndex va) := by
    rw [hcr3]
    rfl
  unfold Mapped walk Maps
  rw [hpde]
  by_cases hpresent : Present (s.entry d (pdIndex va))
  · rw [if_pos hpresent]
    have hpte : load32 s.mem (frameAddr (s.entry d (pdIndex va)) + 4 * ptIndex va) =
        s.entry (s.entry d (pdIndex va) / 4096) (ptIndex va) := rfl
    dsimp only
    rw [hpte]
    split
    · rename_i hpte
      simp [hpresent, hpte]
    · rename_i hpte
      simp [hpte]
  · rw [if_neg hpresent]
    simp [hpresent]

/-- The index of a page that `alloc_page` may be asked for. -/
structure Paged (va : ℕ) : Prop where
  aligned : va % 4096 = 0
  above : 0x00400000 ≤ va
  below : va < 0xFFC00000

namespace Paged

theorem word (h : Paged va) : va < wordSize := h.below.trans (by decide)

theorem pdIndex_pos (h : Paged va) : 0 < pdIndex va := by
  have := h.above
  unfold pdIndex
  omega

theorem pdIndex_lt (h : Paged va) : pdIndex va < 1023 := by
  have := h.below
  unfold pdIndex
  omega

end Paged

theorem not_scratch (hva : Paged va) (hscratch : ¬ScratchVa va) : ¬Scratch (pdIndex va) (ptIndex va) := by
  rintro ⟨va', hva', hpd, hpt⟩
  have haligned := hva.aligned
  have haligned' := Working.scratch_aligned hva'
  obtain rfl : va' = va := by
    unfold pdIndex at hpd
    unfold ptIndex at hpt
    omega
  exact hscratch hva'

namespace Owned

/-- The table of a present entry of a directory is entered for it. -/
theorem owner_table (h : Owned L s.entry s.bitmap owner) (hpid : pid < maxProc) (hp : 0 < p) (hp' : p < 1023)
    (hpresent : Present (s.entry (L.dir pid) p)) : owner (s.entry (L.dir pid) p / 4096) = tableOf pid p :=
  (h.pde pid hpid p (by omega) hpresent).table hp hp'

theorem owner_ne_free (h : owner K = tableOf pid p) : owner K ≠ .free := table_ne_free h

/-- A store to an entry of a page table changes what the directory maps at that entry. -/
theorem maps_setPte (h : Owned L s.entry s.bitmap owner) (hpid : pid < maxProc) (hp : 0 < p) (hp' : p < 1023)
    (hq : q < 1024) (hpresent : Present (s.entry (L.dir pid) p)) (hK : s.entry (L.dir pid) p / 4096 = K)
    (hv : v < wordSize) :
    (Maps (s.setEntry K q v) (L.dir pid) p q ↔ Present v) ∧
      ∀ p' q', 0 < p' → p' < 1023 → q' < 1024 → ¬(p' = p ∧ q' = q) →
        (Maps (s.setEntry K q v) (L.dir pid) p' q' ↔ Maps s (L.dir pid) p' q') := by
  have hown := h.owner_table hpid hp hp' hpresent
  rw [hK] at hown
  have hdir : ∀ i < 1024, (s.setEntry K q v).entry (L.dir pid) i = s.entry (L.dir pid) i := by
    intro i hi
    refine PagingState.entry_setEntry_of_ne hq hi fun he => ?_
    exact h.ne_dir (owner_ne_free hown) hpid he.1.symm
  unfold Maps
  constructor
  · rw [hdir p (by omega), hK, PagingState.entry_setEntry_self hv]
    exact and_iff_right hpresent
  · intro p' q' hpos hlt hq' hne
    rw [hdir p' (by omega)]
    refine and_congr_right fun hpresent' => ?_
    rw [PagingState.entry_setEntry_of_ne hq hq']
    rintro ⟨hsame, rfl⟩
    -- the same table is reached through one index only
    have hown' := h.owner_table hpid hpos hlt hpresent'
    rw [hsame, hown] at hown'
    exact hne ⟨(Owner.table.inj hown').1.symm, rfl⟩

/-- `phys_alloc_frame` that finds nothing does nothing. -/
theorem allocFrame_null {bm : Bitmap} {e : ℕ → ℕ → ℕ} (h : Owned L e bm owner) (hnull : (physAllocFrame bm).1 = 0) :
    physAllocFrame bm = (0, bm) := by
  rcases physAllocFrame_spec bm with ⟨g, hlt, hclear, -, hr⟩ | ⟨-, hr⟩
  · rw [hr] at hnull
    have hlow := h.newFrame_ge ⟨hlt, hclear⟩
    simp only [reservedFrames, physFrameSize] at hlow hnull
    omega
  · exact hr

/-- `phys_alloc_frame` finds a frame where there is one. -/
theorem allocFrame_ne_zero {bm : Bitmap} {e : ℕ → ℕ → ℕ} (h : Owned L e bm owner) (hg : NewFrame bm g) :
    (physAllocFrame bm).1 ≠ 0 := by
  intro hnull
  rcases physAllocFrame_spec bm with ⟨f, hlt, hclear, -, hr⟩ | ⟨hfull, -⟩
  · rw [hr] at hnull
    have hlow := h.newFrame_ge ⟨hlt, hclear⟩
    simp only [reservedFrames, physFrameSize] at hlow hnull
    omega
  · exact Bool.false_ne_true (hg.clear.symm.trans (hfull g hg.lt))

theorem newFrame_owner (h : Owned L s.entry s.bitmap owner) (hg : NewFrame s.bitmap g) : owner g = .free :=
  h.clear hg.clear

end Owned

theorem bitmapTest_set_self (bm : Bitmap) (g : ℕ) : bitmapTest (bitmapSet bm g) g = true := by
  rw [bitmapTest_set, decide_eq_true rfl, Bool.or_true]

theorem bitmapTest_set_of_ne (bm : Bitmap) {x : ℕ} (hx : x ≠ g) : bitmapTest (bitmapSet bm g) x = bitmapTest bm x := by
  rw [bitmapTest_set, decide_eq_false hx, Bool.or_false]

theorem bitmapTest_free_of_ne (bm : Bitmap) {x : ℕ} (hlow : reservedFrames ≤ g) (hlt : g < physTotalFrames)
    (hx : x ≠ g) : bitmapTest (physFreeFrame (g * 4096) bm) x = bitmapTest bm x := by
  have hfree : physFreeFrame (g * 4096) bm = bitmapClear bm g := physFreeFrame_eq hlow hlt
  rw [hfree, bitmapTest_clear, decide_eq_false hx, Bool.not_false, Bool.and_true]

namespace Sound

theorem mark (h : Sound L cur s owner) (g : ℕ) : Sound L cur { s with bitmap := bitmapSet s.bitmap g } owner :=
  ⟨h.owned.mark g, h.cur_lt, h.cr3⟩

/-- A new frame is entered behind an entry of a page table. -/
theorem mapFresh (h : Sound L cur s owner) (hK : owner K = .table i pid) (hq : q < 1024) (hfree : owner f = .free)
    (hlow : reservedFrames ≤ f) (hlt : f < physTotalFrames) (hused : bitmapTest s.bitmap f = true)
    (hpoints : Points v f) : Sound L cur (s.setEntry K q v) (Function.update owner f (.page K q)) := by
  have hne : K ≠ f := by
    rintro rfl
    exact nomatch hK.symm.trans hfree
  have hentered : Owned L s.entry s.bitmap (Function.update owner f (.page K q)) :=
    h.owned.enter hfree hlow hlt hused fun _ _ => nofun
  have hK' : Function.update owner f (.page K q) K = .table i pid := by
    rw [Function.update_of_ne hne]
    exact hK
  refine ⟨hentered.setPte hK' hq hpoints.word fun _ _ => ?_, h.cur_lt, h.cr3⟩
  rw [hpoints.frame, Function.update_self]

theorem withNewPt_entry (hg : reservedFrames ≤ g) (hpid : pid < maxProc) (hi : i < 1024)
    (hne : ¬(pid = cur ∧ i = pdIndex va)) (hcur : pdIndex va < 1024) :
    (Window.withNewPt s (L.dir cur) g va flags).entry (L.dir pid) i = s.entry (L.dir pid) i := by
  have hdg : L.dir pid ≠ g := fun he => absurd (dir_lt (L := L) hpid) (Nat.not_lt.mpr (he ▸ hg))
  rw [Window.withNewPt, within_clearTable.entry hdg hi]
  exact PagingState.entry_setEntry_of_ne hcur hi fun he => hne ⟨dir_inj he.1, he.2⟩

/-- The entry of a new page table. -/
theorem withNewPt_pde (s : PagingState) (flags : ℕ) (hcur : cur < maxProc) (hlow : reservedFrames ≤ g) (hlt : g < physTotalFrames)
    (hp : pdIndex va < 1024) :
    Points ((Window.withNewPt s (L.dir cur) g va flags).entry (L.dir cur) (pdIndex va)) g := by
  have hpoints := points_pde (hlt.trans (by decide)) flags
  have hdg : L.dir cur ≠ g := fun he => absurd (dir_lt (L := L) hcur) (Nat.not_lt.mpr (he ▸ hlow))
  rw [Window.withNewPt, within_clearTable.entry hdg hp, PagingState.entry_setEntry_self hpoints.word]
  exact hpoints

/-- `map_page` enters an empty page table for the current directory. -/
theorem withNewPt (h : Sound L cur s owner) (hg : NewFrame s.bitmap g) (hva : Paged va) (flags : ℕ) :
    Sound L cur (Window.withNewPt s (L.dir cur) g va flags) (Function.update owner g (tableOf cur (pdIndex va))) := by
  have hlow := h.owned.newFrame_ge hg
  have hfree := h.owned.newFrame_owner hg
  have hp : pdIndex va < 1024 := hva.pdIndex_lt.trans (by decide)
  have hpoints := withNewPt_pde (L := L) s flags h.cur_lt hlow hg.lt hp
  -- first the table, cleared, and then the entry that leads to it
  have hcleared : Owned L (s.clearTable g).entry (bitmapSet s.bitmap g) owner :=
    (h.owned.mark g).within within_clearTable hlow fun _ _ ho => nomatch hfree.symm.trans ho
  have hentered : Owned L (s.clearTable g).entry (bitmapSet s.bitmap g)
      (Function.update owner g (tableOf cur (pdIndex va))) := by
    refine hcleared.enter hfree hlow hg.lt (bitmapTest_set_self _ g) fun _ _ _ j hj => ?_
    rw [entry_clearTable hj]
    decide
  have hwithin : Within g (({ s with bitmap := bitmapSet s.bitmap g } : PagingState).setEntry (L.dir cur) (pdIndex va)
      (g * 4096 ||| (pagePresent ||| pageRw ||| (flags &&& pageUser))))
      (Window.withNewPt s (L.dir cur) g va flags) := within_clearTable
  have howned : Owned L (Window.withNewPt s (L.dir cur) g va flags).entry (bitmapSet s.bitmap g)
      (Function.update owner g (tableOf cur (pdIndex va))) := by
    apply hentered.edit (f := L.dir cur) (j := pdIndex va)
    · intro f' j' hj' hne
      by_cases hf' : f' = g
      · subst hf'
        rw [entry_clearTable hj']
        exact entry_clearTable hj'
      · rw [hwithin.entry hf' hj', within_clearTable.entry hf' hj']
        exact PagingState.entry_setEntry_of_ne hp hj' hne
    · exact dir_ne_fpt h.cur_lt
    · intro pid hpid he _
      obtain rfl := dir_inj he
      rw [hpoints.frame]
      refine ⟨fun h0 => absurd h0 hva.pdIndex_pos.ne', fun h1 => absurd h1 hva.pdIndex_lt.ne, fun _ _ => ?_⟩
      exact Function.update_self _ _ _
    · intro i pid ho
      rw [hentered.low (dir_lt h.cur_lt)] at ho
      exact nomatch ho
  refine ⟨?_, h.cur_lt, hwithin.cr3.trans h.cr3⟩
  rw [hwithin.bitmap]
  exact howned

/-- The new page table maps nothing yet. -/
theorem maps_withNewPt (h : Sound L cur s owner) (hg : NewFrame s.bitmap g) (hva : Paged va)
    (habsent : ¬Present (s.entry (L.dir cur) (pdIndex va))) :
    ∀ p q, 0 < p → p < 1023 → q < 1024 →
      (Maps (Window.withNewPt s (L.dir cur) g va flags) (L.dir cur) p q ↔ Maps s (L.dir cur) p q) := by
  intro p q hp hp' hq
  have hlow := h.owned.newFrame_ge hg
  have hva' : pdIndex va < 1024 := hva.pdIndex_lt.trans (by decide)
  unfold Maps
  by_cases hpva : p = pdIndex va
  · subst hpva
    have hpoints := withNewPt_pde (L := L) s flags h.cur_lt hlow hg.lt hva'
    have hzero : (Window.withNewPt s (L.dir cur) g va flags).entry g q = 0 := entry_clearTable hq
    rw [hpoints.frame, hzero]
    exact iff_of_false (fun hc => absurd hc.2 (by decide)) fun hc => habsent hc.1
  · rw [withNewPt_entry hlow h.cur_lt (by omega) (fun he => hpva he.2) hva']
    refine and_congr_right fun hpresent => ?_
    have hown := h.owned.owner_table h.cur_lt hp hp' hpresent
    generalize s.entry (L.dir cur) p / 4096 = K at hown
    have hKg : K ≠ g := by
      rintro rfl
      exact Owned.owner_ne_free hown (h.owned.newFrame_owner hg)
    have hKd : K ≠ L.dir cur := h.owned.ne_dir (Owned.owner_ne_free hown) h.cur_lt
    rw [Window.withNewPt, within_clearTable.entry hKg hq]
    rw [PagingState.entry_setEntry_of_ne hva' hq fun he => hKd he.1]
    rfl

end Sound

/-- What `map_page` has done with a new frame. -/
structure MapsNew (L : Layout) (cur va f : ℕ) (s t : PagingState) : Prop where
  sound : ∃ owner, Sound L cur t owner
  window : Window t (L.dir cur)
  present : Present (t.entry (L.dir cur) (pdIndex va))
  points : Points (t.entry (t.entry (L.dir cur) (pdIndex va) / 4096) (ptIndex va)) f
  others : ∀ p q, 0 < p → p < 1023 → q < 1024 → ¬(p = pdIndex va ∧ q = ptIndex va) →
    (Maps t (L.dir cur) p q ↔ Maps s (L.dir cur) p q)
  pdes : ∀ pid < maxProc, ∀ i < 1024, ¬(pid = cur ∧ i = pdIndex va) →
    t.entry (L.dir pid) i = s.entry (L.dir pid) i
  /-- No page table is created where there is one, nor when a frame for it is missing. -/
  pde : Present (s.entry (L.dir cur) (pdIndex va)) ∨ (physAllocFrame s.bitmap).1 = 0 →
    t.entry (L.dir cur) (pdIndex va) = s.entry (L.dir cur) (pdIndex va)
  /-- The page table may take one frame. -/
  taken : ∃ g, ∀ x, x ≠ g → bitmapTest t.bitmap x = bitmapTest s.bitmap x

namespace Sound

/-- The entry of a new frame is stored in a page table of the current directory. -/
theorem mapsNew (h : Sound L cur s owner) (hwindow : Window s (L.dir cur)) (hva : Paged va)
    (hpresent : Present (s.entry (L.dir cur) (pdIndex va))) (hfree : owner f = .free)
    (hlow : reservedFrames ≤ f) (hlt : f < physTotalFrames) (hused : bitmapTest s.bitmap f = true)
    (hpoints : Points v f) :
    MapsNew L cur va f s (s.setEntry (s.entry (L.dir cur) (pdIndex va) / 4096) (ptIndex va) v) := by
  have hq := ptIndex_lt va
  have hown := h.owned.owner_table h.cur_lt hva.pdIndex_pos hva.pdIndex_lt hpresent
  generalize hK : s.entry (L.dir cur) (pdIndex va) / 4096 = K at hown
  have hdir : ∀ pid < maxProc, ∀ i < 1024, (s.setEntry K (ptIndex va) v).entry (L.dir pid) i = s.entry (L.dir pid) i := by
    intro pid hpid i hi
    refine PagingState.entry_setEntry_of_ne hq hi fun he => ?_
    exact h.owned.ne_dir (Owned.owner_ne_free hown) hpid he.1.symm
  have hpde := hdir cur h.cur_lt (pdIndex va) (hva.pdIndex_lt.trans (by decide))
  have hmaps := h.owned.maps_setPte h.cur_lt hva.pdIndex_pos hva.pdIndex_lt hq hpresent hK hpoints.word
  refine ⟨⟨_, h.mapFresh hown hq hfree hlow hlt hused hpoints⟩, ?_, ?_, ?_, hmaps.2,
    fun pid hpid i hi _ => hdir pid hpid i hi, fun _ => hpde, 0, fun _ _ => rfl⟩
  · exact hwindow.congr rfl (hdir cur h.cur_lt 1023 (by decide))
  · rw [hpde]
    exact hpresent
  · rw [hpde, hK, PagingState.entry_setEntry_self hpoints.word]
    exact hpoints

/-- `map_page` of a new frame; it stops when the frame for a page table is missing. -/
theorem mapPage_new (h : Sound L cur s owner) (hva : Paged va) (hfree : owner f = .free)
    (hlow : reservedFrames ≤ f) (hlt : f < physTotalFrames) (hused : bitmapTest s.bitmap f = true) (flags : ℕ) :
    Ensures (mapPage (f * 4096) va flags s) fun t =>
      t = s ∧ ¬Present (s.entry (L.dir cur) (pdIndex va)) ∧ (physAllocFrame s.bitmap).1 = 0 ∨
        MapsNew L cur va f s t := by
  have hword := hva.word
  have hp : pdIndex va < 1024 := hva.pdIndex_lt.trans (by decide)
  have hpoints := points_pte (hlt.trans (by decide)) flags
  refine h.homed.mapPage_windowed hword (Nat.mul_mod_left f 4096) hva.aligned fun hwindow => ?_
  by_cases hpresent : Present (s.entry (L.dir cur) (pdIndex va))
  · have hown := h.owned.owner_table h.cur_lt hva.pdIndex_pos hva.pdIndex_lt hpresent
    have hne := h.owned.ne_dir (Owned.owner_ne_free hown) h.cur_lt
    rw [hwindow.mapPage_present hword hva.aligned hpresent hne]
    exact ensures_ok (.inr (h.mapsNew hwindow hva hpresent hfree hlow hlt hused hpoints))
  · have hdused := h.owned.reserved (L.dir cur) (dir_lt h.cur_lt)
    rcases hwindow.mapPage_absent hword hva.aligned hva.pdIndex_lt.ne hpresent hdused f with
      ⟨hnull, hmap⟩ | ⟨g, hg, hnull, hmap⟩
    · rw [hmap]
      exact ensures_ok (.inl ⟨rfl, hpresent, hnull⟩)
    · -- a page table is created first
      have hglow := h.owned.newFrame_ge hg
      have hnew := h.withNewPt hg hva flags
      have hpde := withNewPt_pde (L := L) s flags h.cur_lt hglow hg.lt hp
      have hfg : f ≠ g := by
        rintro rfl
        exact nomatch hused.symm.trans hg.clear
      have hwindow' : Window (Window.withNewPt s (L.dir cur) g va flags) (L.dir cur) := by
        refine hwindow.congr ?_ ?_
        · exact (within_clearTable (g := g)).cr3
        · exact withNewPt_entry hglow h.cur_lt (by decide) (fun he => hva.pdIndex_lt.ne he.2.symm) hp
      have hused' : bitmapTest (Window.withNewPt s (L.dir cur) g va flags).bitmap f = true := by
        rw [Window.withNewPt, (within_clearTable (g := g)).bitmap]
        change bitmapTest (bitmapSet s.bitmap g) f = true
        rw [bitmapTest_set, hused]
        rfl
      have hfree' : Function.update owner g (tableOf cur (pdIndex va)) f = .free := by
        rw [Function.update_of_ne hfg]
        exact hfree
      have hstored := hnew.mapsNew hwindow' hva hpde.present hfree' hlow hlt hused' hpoints
      rw [hpde.frame] at hstored
      rw [hmap]
      refine ensures_ok (.inr ⟨hstored.sound, hstored.window, hstored.present, hstored.points, ?_, ?_, ?_, g, ?_⟩)
      · intro p q h₁ h₂ h₃ hne
        rw [hstored.others p q h₁ h₂ h₃ hne]
        exact h.maps_withNewPt hg hva hpresent p q h₁ h₂ h₃
      · intro pid hpid i hi hne
        rw [hstored.pdes pid hpid i hi hne]
        exact withNewPt_entry hglow hpid hi hne hp
      · intro hc
        exact absurd hc (not_or.mpr ⟨hpresent, hnull⟩)
      · intro x hx
        rw [PagingState.setEntry_bitmap, Window.withNewPt, (within_clearTable (g := g)).bitmap]
        exact bitmapTest_set_of_ne s.bitmap hx

end Sound

/-- What `alloc_page` has done when it returns. -/
structure Allocs (L : Layout) (cur va : ℕ) (s : PagingState) (r : ℕ × PagingState) : Prop where
  answer : r.1 = 0 ∨ r.1 = va
  /-- It fails for the want of a frame, or of a second one for the page table. -/
  refused : r.1 = 0 → (physAllocFrame (physAllocFrame s.bitmap).2).1 = 0
  here : ¬Mapped s.mem s.cr3 va → (Maps r.2 (L.dir cur) (pdIndex va) (ptIndex va) ↔ r.1 ≠ 0)
  others : ∀ p q, 0 < p → p < 1023 → q < 1024 → ¬(p = pdIndex va ∧ q = ptIndex va) →
    (Maps r.2 (L.dir cur) p q ↔ Maps s (L.dir cur) p q)
  pdes : ∀ pid < maxProc, ∀ i < 1024, ¬(pid = cur ∧ i = pdIndex va) →
    r.2.entry (L.dir pid) i = s.entry (L.dir pid) i
  /-- No page table is created where there is one, nor when a second frame is missing. -/
  pde : Present (s.entry (L.dir cur) (pdIndex va)) ∨ (physAllocFrame (physAllocFrame s.bitmap).2).1 = 0 →
    r.2.entry (L.dir cur) (pdIndex va) = s.entry (L.dir cur) (pdIndex va)
  /-- The page and its page table take at most two frames. -/
  taken : ∃ f g, ∀ x, x ≠ f → x ≠ g → bitmapTest r.2.bitmap x = bitmapTest s.bitmap x

theorem add32_frame (hf : f < physTotalFrames) (hva : va % 4096 = 0) :
    add32 (f * 4096) (va % 4096) = f * 4096 := by
  rw [hva]
  unfold add32
  have htotal : physTotalFrames = 16384 := by decide
  simp only [wordSize]
  omega

theorem frame_ne_zero (hlow : reservedFrames ≤ f) : f * 4096 ≠ 0 := by
  have : 0 < reservedFrames := by decide
  omega

namespace Sound

theorem allocPage (h : Sound L cur s owner) (hva : Paged va) (flags : ℕ) :
    Ensures (allocPage va flags s) fun r => Allocs L cur va s r ∧ ∃ owner', Sound L cur r.2 owner' := by
  unfold Paging.allocPage
  dsimp only
  rcases allocFrame_cases s.bitmap with hnull | ⟨f, hf, hr⟩
  · rw [if_pos hnull]
    refine ensures_ok ⟨⟨.inl rfl, fun _ => ?_, fun hunmapped => ?_, fun _ _ _ _ _ _ => Iff.rfl,
      fun _ _ _ _ _ => rfl, fun _ => rfl, 0, 0, fun _ _ _ => rfl⟩, owner, h⟩
    · rw [h.owned.allocFrame_null hnull]
      exact (congrArg Prod.fst (h.owned.allocFrame_null hnull))
    · rw [mapped_iff h.cr3] at hunmapped
      exact iff_of_false hunmapped fun hne => hne rfl
  have hlow := h.owned.newFrame_ge hf
  have hfree := h.owned.newFrame_owner hf
  have hs₁ := h.mark f
  rw [hr, if_neg (frame_ne_zero hlow)]
  refine (hs₁.mapPage_new hva hfree hlow hf.lt (bitmapTest_set_self _ f) flags).bind fun t ht => ?_
  rcases ht with ⟨rfl, habsent, hnull⟩ | ht
  · -- no page table: the frame goes back
    have hunmapped' : Ensures (getPhysaddr va { s with bitmap := bitmapSet s.bitmap f }) fun phys => phys = 0 := by
      refine hs₁.homed.getPhysaddr_windowed hva.word fun hwindow => ?_
      rw [hwindow.getPhysaddr_eq hva.word, if_neg fun hc => habsent hc.1]
      exact ensures_ok rfl
    refine hunmapped'.bind fun phys hphys => ?_
    rw [if_pos hphys]
    refine ensures_ok ⟨⟨.inl rfl, fun _ => ?_, fun _ => ?_, fun _ _ _ _ _ _ => Iff.rfl, fun _ _ _ _ _ => rfl,
      fun _ => rfl, f, f, fun x hx _ => ?_⟩, owner, ?_⟩
    · rw [hr]
      exact hnull
    · exact iff_of_false (fun hmaps => habsent hmaps.1) fun hne => hne rfl
    · exact (bitmapTest_free_of_ne _ hlow hf.lt hx).trans (bitmapTest_set_of_ne s.bitmap hx)
    · exact ⟨hs₁.owned.release hfree, h.cur_lt, h.cr3⟩
  · have hphys : getPhysaddr va t = .ok (f * 4096) := by
      rw [ht.window.getPhysaddr_eq hva.word, if_pos ⟨ht.present, ht.points.present⟩, ht.points.frame,
        add32_frame hf.lt hva.aligned]
    have hvane : va ≠ 0 := by
      have := hva.above
      omega
    rw [hphys, ok_bind, if_neg (frame_ne_zero hlow)]
    obtain ⟨g, hg⟩ := ht.taken
    refine ensures_ok ⟨⟨.inr rfl, fun hc => absurd hc hvane, fun _ => ?_, ht.others, ht.pdes, ?_, f, g, ?_⟩, ht.sound⟩
    · exact iff_of_true ⟨ht.present, ht.points.present⟩ hvane
    · intro hc
      refine ht.pde ?_
      rw [hr] at hc
      exact hc
    · intro x hxf hxg
      exact (hg x hxg).trans (bitmapTest_set_of_ne s.bitmap hxf)

end Sound

/-- `alloc_page` returns where the recursive window is mapped. -/
theorem Sound.allocPage_returns (h : Sound L cur s owner) (hwindow : Window s (L.dir cur)) (hva : Paged va)
    (flags : ℕ) : ∃ r, Paging.allocPage va flags s = .ok r := by
  unfold Paging.allocPage
  dsimp only
  rcases allocFrame_cases s.bitmap with hnull | ⟨f, hf, hr⟩
  · rw [if_pos hnull]
    exact ⟨_, rfl⟩
  have hlow := h.owned.newFrame_ge hf
  have hs₁ := h.mark f
  have hwindow₁ : Window { s with bitmap := bitmapSet s.bitmap f } (L.dir cur) := hwindow.congr rfl rfl
  rw [hr, if_neg (frame_ne_zero hlow)]
  obtain ⟨t, ht⟩ : ∃ t, mapPage (f * 4096) va flags { s with bitmap := bitmapSet s.bitmap f } = .ok t := by
    by_cases hpresent : Present (s.entry (L.dir cur) (pdIndex va))
    · have hown := h.owned.owner_table h.cur_lt hva.pdIndex_pos hva.pdIndex_lt hpresent
      exact ⟨_, hwindow₁.mapPage_present hva.word hva.aligned hpresent
        (h.owned.ne_dir (Owned.owner_ne_free hown) h.cur_lt) f⟩
    · have hdused := hs₁.owned.reserved (L.dir cur) (dir_lt h.cur_lt)
      rcases hwindow₁.mapPage_absent hva.word hva.aligned hva.pdIndex_lt.ne hpresent hdused f with
        ⟨-, hmap⟩ | ⟨g, -, -, hmap⟩
      · exact ⟨_, hmap⟩
      · exact ⟨_, hmap⟩
  have hwindow₂ : Window t (L.dir cur) := by
    have hfree := h.owned.newFrame_owner hf
    rcases hs₁.mapPage_new hva hfree hlow hf.lt (bitmapTest_set_self _ f) flags t ht with ⟨rfl, -⟩ | hnew
    · exact hwindow₁
    · exact hnew.window
  obtain ⟨phys, hphys⟩ : ∃ phys, getPhysaddr va t = .ok phys := ⟨_, hwindow₂.getPhysaddr_eq hva.word⟩
  rw [ht, ok_bind, hphys, ok_bind]
  split
  · exact ⟨_, rfl⟩
  · exact ⟨_, rfl⟩

/-- At least `n` frames are free. -/
def Spare (bm : Bitmap) (n : ℕ) : Prop := ∃ C : Finset ℕ, n ≤ C.card ∧ ∀ f ∈ C, NewFrame bm f

theorem Spare.mono {bm : Bitmap} {m n : ℕ} (h : Spare bm n) (hle : m ≤ n) : Spare bm m := by
  obtain ⟨C, hcard, hclear⟩ := h
  exact ⟨C, hle.trans hcard, hclear⟩

theorem Allocs.spare {r : ℕ × PagingState} {n : ℕ} (h : Allocs L cur va s r) (hspare : Spare s.bitmap (n + 2)) :
    Spare r.2.bitmap n := by
  obtain ⟨f, g, hsame⟩ := h.taken
  obtain ⟨C, hcard, hclear⟩ := hspare
  have hf := Finset.pred_card_le_card_erase (s := C) (a := f)
  have hg := Finset.pred_card_le_card_erase (s := C.erase f) (a := g)
  refine ⟨(C.erase f).erase g, by omega, fun x hx => ?_⟩
  obtain ⟨hxg, hx⟩ := Finset.mem_erase.mp hx
  obtain ⟨hxf, hx⟩ := Finset.mem_erase.mp hx
  exact ⟨(hclear x hx).lt, (hsame x hxf hxg).trans (hclear x hx).clear⟩

/-- Two frames are enough for a page and its page table. -/
theorem Sound.second_frame (h : Sound L cur s owner) (hspare : Spare s.bitmap 2) :
    (physAllocFrame (physAllocFrame s.bitmap).2).1 ≠ 0 := by
  obtain ⟨C, hcard, hclear⟩ := hspare
  rcases allocFrame_cases s.bitmap with hnull | ⟨k, -, hr⟩
  · obtain ⟨f, hf⟩ := Finset.card_pos.mp (by omega : 0 < C.card)
    exact absurd hnull (h.owned.allocFrame_ne_zero (hclear f hf))
  · -- the first one leaves another one
    obtain ⟨f, hf, hfk⟩ := Finset.exists_mem_ne (by omega : 1 < C.card) k
    have hleft : NewFrame (bitmapSet s.bitmap k) f :=
      ⟨(hclear f hf).lt, (bitmapTest_set_of_ne s.bitmap hfk).trans (hclear f hf).clear⟩
    rw [hr]
    exact (h.owned.mark k).allocFrame_ne_zero hleft

theorem Sound.allocPage_succeeds (h : Sound L cur s owner) (hwindow : Window s (L.dir cur)) (hva : Paged va)
    (hspare : Spare s.bitmap 2) (flags : ℕ) :
    ∃ t, Paging.allocPage va flags s = .ok (va, t) ∧ Allocs L cur va s (va, t) ∧
      (∃ owner', Sound L cur t owner') ∧ Window t (L.dir cur) := by
  obtain ⟨⟨a, t⟩, hr⟩ := h.allocPage_returns hwindow hva flags
  obtain ⟨hallocs, owner', ht⟩ := h.allocPage hva flags _ hr
  obtain rfl : a = va := hallocs.answer.resolve_left (mt hallocs.refused (h.second_frame hspare))
  refine ⟨t, hr, hallocs, ⟨owner', ht⟩, hwindow.congr (ht.cr3.trans h.cr3.symm) ?_⟩
  exact hallocs.pdes cur h.cur_lt 1023 (by decide) fun he => hva.pdIndex_lt.ne he.2.symm

/-- What `free_page` has done when it returns. -/
structure Frees (L : Layout) (cur va : ℕ) (s t : PagingState) : Prop where
  here : ¬Maps t (L.dir cur) (pdIndex va) (ptIndex va)
  others : ∀ p q, 0 < p → p < 1023 → q < 1024 → ¬(p = pdIndex va ∧ q = ptIndex va) →
    (Maps t (L.dir cur) p q ↔ Maps s (L.dir cur) p q)
  pdes : ∀ pid < maxProc, ∀ i < 1024, t.entry (L.dir pid) i = s.entry (L.dir pid) i

namespace Sound

theorem freePage (h : Sound L cur s owner) (hva : Paged va) (hscratch : ¬ScratchVa va) :
    Ensures (freePage va s) fun t => Frees L cur va s t ∧ ∃ owner', Sound L cur t owner' := by
  have hq := ptIndex_lt va
  have hword := hva.word
  unfold Paging.freePage
  refine Ensures.bind (Q := fun phys => getPhysaddr va s = .ok phys) (fun _ hphys => hphys) fun phys hphys => ?_
  have hwindow : Window s (L.dir cur) := by
    by_contra hno
    exact h.homed.getPhysaddr_windowed (Q := fun _ => False) hword (fun hw => absurd hw hno) phys hphys
  rw [hwindow.getPhysaddr_eq hword] at hphys
  by_cases hmaps : Present (s.entry (L.dir cur) (pdIndex va)) ∧
      Present (s.entry (s.entry (L.dir cur) (pdIndex va) / 4096) (ptIndex va))
  · have hunmap := hwindow.unmapPage_eq hword hva.aligned
    rw [if_pos hmaps] at hphys hunmap
    obtain ⟨hpresent, hpte⟩ := hmaps
    have hown := h.owned.owner_table h.cur_lt hva.pdIndex_pos hva.pdIndex_lt hpresent
    generalize hK : s.entry (L.dir cur) (pdIndex va) / 4096 = K at hown hpte hphys hunmap
    have hpage := h.owned.pte K _ _ hown _ hq (not_scratch hva hscratch) hpte
    generalize s.entry K (ptIndex va) / 4096 = g at hpage hphys
    obtain ⟨hlow, hlt, -⟩ := h.owned.used g (Owned.page_ne_free hpage)
    rw [add32_frame hlt hva.aligned] at hphys
    obtain rfl := Except.ok.inj hphys
    rw [if_neg (frame_ne_zero hlow), hunmap, ok_bind]
    -- the entry is cleared, and the page goes back
    have hcleared := h.owned.setPte hown hq (v := 0) (by decide) fun _ hpresent => absurd hpresent (by decide)
    have hentry := PagingState.entry_setEntry_self (s := s) (f := K) (j := ptIndex va) (v := 0) (by decide)
    have hdropped := hcleared.dropPage hpage (by rw [hentry]; decide)
    have hmaps := h.owned.maps_setPte h.cur_lt hva.pdIndex_pos hva.pdIndex_lt hq hpresent hK (v := 0) (by decide)
    refine ensures_ok ⟨⟨?_, hmaps.2, fun pid hpid i hi => ?_⟩, Function.update owner g .free, ?_⟩
    · intro hc
      exact absurd (hmaps.1.mp hc) (by decide)
    · refine PagingState.entry_setEntry_of_ne hq hi fun he => ?_
      exact h.owned.ne_dir (Owned.owner_ne_free hown) hpid he.1.symm
    · exact ⟨hdropped.release (Function.update_self _ _ _), h.cur_lt, h.cr3⟩
  · rw [if_neg hmaps] at hphys
    obtain rfl := Except.ok.inj hphys
    rw [if_pos rfl]
    exact ensures_ok ⟨⟨hmaps, fun _ _ _ _ _ _ => Iff.rfl, fun _ _ _ _ => rfl⟩, owner, h⟩

end Sound

/-- `free_page` returns where the recursive window is mapped. -/
theorem Window.freePage_returns (hwindow : Window s d) (hva : Paged va) : ∃ t, Paging.freePage va s = .ok t := by
  unfold Paging.freePage
  obtain ⟨phys, hphys⟩ : ∃ phys, getPhysaddr va s = .ok phys := ⟨_, hwindow.getPhysaddr_eq hva.word⟩
  obtain ⟨t, ht⟩ : ∃ t, unmapPage va s = .ok t := ⟨_, hwindow.unmapPage_eq hva.word hva.aligned⟩
  rw [hphys, ok_bind]
  split
  · exact ⟨_, rfl⟩
  · rw [ht, ok_bind]
    exact ⟨_, rfl⟩

/-- Pages are told apart by their two indices. -/
theorem index_ne {va' : ℕ} (hva : Paged va) (hva' : Paged va') (hne : va' ≠ va) :
    ¬(pdIndex va' = pdIndex va ∧ ptIndex va' = ptIndex va) := by
  rintro ⟨hpd, hpt⟩
  have haligned := hva.aligned
  have haligned' := hva'.aligned
  unfold pdIndex at hpd
  unfold ptIndex at hpt
  omega

/-- The tables of the current directory are in order: the ledger covers them, and the recursive
window is mapped. -/
def InOrder (L : Layout) (s : PagingState) : Prop := ∃ cur owner, Sound L cur s owner ∧ Window s (L.dir cur)

namespace InOrder

theorem allocPage {r : ℕ × PagingState} (h : InOrder L s) (hva : Paged va) (hok : allocPage va flags s = .ok r) :
    InOrder L r.2 ∧ (¬Mapped s.mem s.cr3 va → (Mapped r.2.mem r.2.cr3 va ↔ r.1 ≠ 0)) ∧
      ∀ va', Paged va' → va' ≠ va → (Mapped r.2.mem r.2.cr3 va' ↔ Mapped s.mem s.cr3 va') := by
  obtain ⟨cur, owner, hs, hwindow⟩ := h
  obtain ⟨hallocs, owner', ht⟩ := hs.allocPage hva flags r hok
  have hself := hallocs.pdes cur hs.cur_lt 1023 (by decide) fun he => hva.pdIndex_lt.ne he.2.symm
  refine ⟨⟨cur, owner', ht, ht.homed.window ?_⟩, fun hunmapped => ?_, fun va' hva' hne => ?_⟩
  · rw [hself]
    exact hwindow.present
  · rw [mapped_iff ht.cr3]
    exact hallocs.here hunmapped
  · rw [mapped_iff ht.cr3, mapped_iff hs.cr3]
    exact hallocs.others _ _ hva'.pdIndex_pos hva'.pdIndex_lt (ptIndex_lt va') (index_ne hva hva' hne)

theorem freePage (h : InOrder L s) (hva : Paged va) (hscratch : ¬ScratchVa va) :
    ∃ t, freePage va s = .ok t ∧ InOrder L t ∧ ¬Mapped t.mem t.cr3 va ∧
      ∀ va', Paged va' → va' ≠ va → (Mapped t.mem t.cr3 va' ↔ Mapped s.mem s.cr3 va') := by
  obtain ⟨cur, owner, hs, hwindow⟩ := h
  obtain ⟨t, hok⟩ := hwindow.freePage_returns hva
  obtain ⟨hfrees, owner', ht⟩ := hs.freePage hva hscratch t hok
  have hself := hfrees.pdes cur hs.cur_lt 1023 (by decide)
  refine ⟨t, hok, ⟨cur, owner', ht, ht.homed.window ?_⟩, ?_, fun va' hva' hne => ?_⟩
  · rw [hself]
    exact hwindow.present
  · rw [mapped_iff ht.cr3]
    exact hfrees.here
  · rw [mapped_iff ht.cr3, mapped_iff hs.cr3]
    exact hfrees.others _ _ hva'.pdIndex_pos hva'.pdIndex_lt (ptIndex_lt va') (index_ne hva hva' hne)

end InOrder

end HekaOS.Paging
