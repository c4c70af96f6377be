import HekaOS.KernelMappings

/-!
# What a rollback restores

`alloc_page` where the page table may be missing: before the page comes there is a state in which the
table exists. `Restored` is what a call on another directory leaves when all that it had mapped on the
way is unmapped again: the translations are those from before, but for excepted entries.
-/

namespace HekaOS.Paging
open MachineWord KernelMemory KernelTriples ByteMemory PageWalk WordBitmap PhysPageFrame AddressMap
open Tasks (maxProc pageSize)

variable {L : Layout} {s t u : PagingState} {owner : ℕ → Owner} {A : Set (ℕ × ℕ)} {E : Set ℕ} {T : Finset ℕ}
  {child cur d dc f g i j K p pid q va flags x : ℕ}

/-- The bitmap may be spelled in another way. -/
structure SameBits (s t : PagingState) : Prop where
  cr3 : t.cr3 = s.cr3
  mem : t.mem = s.mem
  bitmap : ∀ x, bitmapTest t.bitmap x = bitmapTest s.bitmap x

theorem SameBits.refl (s : PagingState) : SameBits s s := ⟨rfl, rfl, fun _ => rfl⟩

theorem SameBits.entry (h : SameBits s t) (f j : ℕ) : t.entry f j = s.entry f j := by
  unfold PagingState.entry
  rw [h.mem]

/-- The current directory has a page table at index `p`, which may be a new one. -/
structure TableMade (L : Layout) (cur p : ℕ) (s b : PagingState) : Prop where
  sound : ∃ owner, Sound L cur b owner
  adds : Adds L ∅ s b
  present : Present (b.entry (L.dir cur) p)
  pdes : ∀ pid < maxProc, ∀ i < 1024, ¬(pid = cur ∧ i = p) → b.entry (L.dir pid) i = s.entry (L.dir pid) i
  maps : ∀ i j, 0 < i → i < 1023 → j < 1024 → (Maps b (L.dir cur) i j ↔ Maps s (L.dir cur) i j)
  fpt : ∀ j < 1024, b.entry L.fptFrame j = s.entry L.fptFrame j
  used : ∀ f, InUse s f → InUse b f
  old : Present (s.entry (L.dir cur) p) → b = s

theorem clearTable_mem (h : t.mem = s.mem) (g : ℕ) : (t.clearTable g).mem = (s.clearTable g).mem := by
  unfold PagingState.clearTable
  induction List.range 1024 generalizing s t with
  | nil => exact h
  | cons i l ih =>
    rw [List.foldl_cons, List.foldl_cons]
    apply ih
    unfold PagingState.setEntry PagingState.setWord
    dsimp only
    rw [h]

theorem withNewPt_mem (h : t.mem = s.mem) (d g va flags : ℕ) :
    (Window.withNewPt t d g va flags).mem = (Window.withNewPt s d g va flags).mem := by
  apply clearTable_mem
  unfold PagingState.setEntry PagingState.setWord
  dsimp only
  rw [h]

theorem withNewPt_bit (s : PagingState) (d g va flags x : ℕ) :
    bitmapTest (Window.withNewPt s d g va flags).bitmap x = (bitmapTest s.bitmap x || decide (x = g)) := by
  have hwithin : Within g (({ s with bitmap := bitmapSet s.bitmap g } : PagingState).setEntry d (pdIndex va)
      (g * 4096 ||| (pagePresent ||| pageRw ||| (flags &&& pageUser)))) (Window.withNewPt s d g va flags) :=
    within_clearTable
  rw [hwithin.bitmap]
  exact bitmapTest_set

namespace Sound

theorem tableMade_old (h : Sound L cur s owner) (hpresent : Present (s.entry (L.dir cur) p)) : TableMade L cur p s s :=
  ⟨⟨owner, h⟩, .refl L s, hpresent, fun _ _ _ _ _ => rfl, fun _ _ _ _ _ => Iff.rfl, fun _ _ => rfl, fun _ hf => hf,
    fun _ => rfl⟩

theorem tableMade_new (h : Sound L cur s owner) (hg : NewFrame s.bitmap g) (hva : Paged va) (flags : ℕ)
    (habsent : ¬Present (s.entry (L.dir cur) (pdIndex va))) :
    TableMade L cur (pdIndex va) s (Window.withNewPt s (L.dir cur) g va flags) := by
  have hp : pdIndex va < 1024 := hva.pdIndex_lt.trans (by decide)
  have hlow := h.owned.newFrame_ge hg
  refine ⟨⟨_, h.withNewPt hg hva flags⟩, h.withNewPt_adds hg hva flags, ?_,
    fun pid hpid i hi hne => withNewPt_entry hlow hpid hi hne hp, h.maps_withNewPt hg hva habsent, fun j hj => ?_,
    fun f hf => ?_, fun hpresent => absurd hpresent habsent⟩
  · exact (withNewPt_pde s flags h.cur_lt hlow hg.lt hp).present
  · have hne : L.fptFrame ≠ g := fun he => absurd L.fpt_low (Nat.not_lt.mpr (he ▸ hlow))
    rw [Window.withNewPt, within_clearTable.entry hne hj]
    exact PagingState.entry_setEntry_of_ne hp hj fun he => dir_ne_fpt h.cur_lt he.1.symm
  · rw [InUse, withNewPt_bit, hf]
    rfl

theorem tabled (h : Sound L cur s owner) (hwindow : Window s (L.dir cur)) (hp : 0 < p) (hp' : p < 1023)
    (hpresent : Present (s.entry (L.dir cur) p)) : Tabled (L.dir cur) (s.entry (L.dir cur) p / 4096) p s :=
  ⟨hwindow, hpresent, rfl,
    h.owned.ne_dir (Owned.owner_ne_free (h.owned.owner_table h.cur_lt hp hp' hpresent)) h.cur_lt⟩

theorem tabled_new (h : Sound L cur s owner) (hwindow : Window s (L.dir cur)) (hg : NewFrame s.bitmap g) (hva : Paged va)
    (flags : ℕ) : Tabled (L.dir cur) g (pdIndex va) (Window.withNewPt s (L.dir cur) g va flags) := by
  have hp : pdIndex va < 1024 := hva.pdIndex_lt.trans (by decide)
  have hlow := h.owned.newFrame_ge hg
  have hpoints := withNewPt_pde (L := L) s flags h.cur_lt hlow hg.lt hp
  refine ⟨hwindow.congr ?_ ?_, hpoints.present, hpoints.frame, fun he => ?_⟩
  · exact (h.withNewPt hg hva flags).cr3.trans h.cr3.symm
  · exact withNewPt_entry hlow h.cur_lt (by decide) (fun he => hva.pdIndex_lt.ne he.2.symm) hp
  · exact absurd (dir_lt (L := L) h.cur_lt) (Nat.not_lt.mpr (he ▸ hlow))

/-- `alloc_page` fails and changes no bit, or maps one frame, where need be behind a new page table. -/
theorem allocPage_outcome (h : Sound L cur s owner) (hwindow : Window s (L.dir cur)) (hva : Paged va) (flags : ℕ) :
    Returns (Paging.allocPage va flags s) fun r =>
      r.1 = 0 ∧ SameBits s r.2 ∧ (Present (s.entry (L.dir cur) (pdIndex va)) → Full s) ∨
      r.1 = va ∧ ∃ b K g, TableMade L cur (pdIndex va) s b ∧ Tabled (L.dir cur) K (pdIndex va) b ∧
        PageIn K (ptIndex va) g b r.2 := by
  have hp : pdIndex va < 1024 := hva.pdIndex_lt.trans (by decide)
  by_cases hpresent : Present (s.entry (L.dir cur) (pdIndex va))
  · have htabled := h.tabled hwindow hva.pdIndex_pos hva.pdIndex_lt hpresent
    rcases htabled.allocPage hva rfl h.owned.reserved flags with ⟨hfull, hok⟩ | ⟨g, t, hok, hin⟩
    · exact ⟨_, hok, .inl ⟨rfl, .refl s, fun _ => hfull⟩⟩
    · exact ⟨_, hok, .inr ⟨rfl, s, _, g, h.tableMade_old hpresent, htabled, hin⟩⟩
  unfold Paging.allocPage
  dsimp only
  rcases allocFrame_split h.owned.reserved with ⟨hfull, hr⟩ | ⟨f, hf, hflow, hr⟩
  · rw [hr, if_pos rfl]
    exact returns_ok (.inl ⟨rfl, .refl s, fun _ => hfull⟩)
  rw [hr, if_neg (frame_ne_zero hflow)]
  dsimp only
  obtain ⟨s₁, hs₁⟩ : ∃ s₁, ({ s with bitmap := bitmapSet s.bitmap f } : PagingState) = s₁ := ⟨_, rfl⟩
  have hmark : Sound L cur s₁ owner := hs₁ ▸ h.mark f
  have hmem : s₁.mem = s.mem := by rw [← hs₁]
  have hcr3 : s₁.cr3 = s.cr3 := by rw [← hs₁]
  have hbits : ∀ x, bitmapTest s₁.bitmap x = (bitmapTest s.bitmap x || decide (x = f)) := by
    intro x
    rw [← hs₁]
    exact bitmapTest_set
  have hentry : ∀ e j, s₁.entry e j = s.entry e j := by
    intro e j
    unfold PagingState.entry
    rw [hmem]
  have hwindow₁ : Window s₁ (L.dir cur) := hwindow.congr hcr3 (hentry _ _)
  have habsent₁ : ¬Present (s₁.entry (L.dir cur) (pdIndex va)) := by
    rw [hentry]
    exact hpresent
  have hdused := hmark.owned.reserved (L.dir cur) (dir_lt h.cur_lt)
  rw [hs₁]
  have hsplit : _ ∧ mapPage (f * 4096) va flags s₁ = .ok s₁ ∨ _ :=
    hwindow₁.mapPage_absent hva.word hva.aligned hva.pdIndex_lt.ne habsent₁ hdused f
  rcases hsplit with
    ⟨-, hmap⟩ | ⟨g, hg, -, hmap⟩
  · -- no second frame for the page table
    rw [hmap, ok_bind, hwindow₁.getPhysaddr_eq hva.word, if_neg fun hc => habsent₁ hc.1, ok_bind, if_pos rfl]
    refine returns_ok (.inl ⟨rfl, ⟨hcr3, hmem, fun x => ?_⟩, fun hc => absurd hc hpresent⟩)
    have hfree : bitmapTest (physFreeFrame (f * 4096) s₁.bitmap) x = (bitmapTest s₁.bitmap x && !decide (x = f)) :=
      bitmapTest_free _ hflow hf.lt x
    refine hfree.trans ?_
    rw [hbits]
    by_cases hx : x = f
    · subst hx
      rw [hf.clear]
      simp
    · simp [hx]
  · have hgf : g ≠ f := by
      rintro rfl
      have hclear := hg.clear
      rw [hbits, decide_eq_true rfl, Bool.or_true] at hclear
      exact nomatch hclear
    have hgnew : NewFrame s.bitmap g := by
      refine ⟨hg.lt, ?_⟩
      have hclear := hg.clear
      rw [hbits, decide_eq_false hgf, Bool.or_false] at hclear
      exact hclear
    obtain ⟨b, hb⟩ : ∃ b, Window.withNewPt s (L.dir cur) g va flags = b := ⟨_, rfl⟩
    obtain ⟨t, ht⟩ : ∃ t, (Window.withNewPt s₁ (L.dir cur) g va flags).setEntry g (ptIndex va)
        (f * 4096 ||| (flags &&& 0xFFF) ||| 0x01) = t := ⟨_, rfl⟩
    have hpoints := points_pte (hf.lt.trans (by decide) : f < 2 ^ 20) flags
    have hset : Within g (Window.withNewPt s₁ (L.dir cur) g va flags) t := ht ▸ within_setEntry (ptIndex_lt va)
    have hself : t.entry g (ptIndex va) = f * 4096 ||| (flags &&& 0xFFF) ||| 0x01 := by
      rw [← ht]
      exact PagingState.entry_setEntry_self hpoints.word
    rw [← hself] at hpoints
    have htable₁ := hmark.tabled_new hwindow₁ hg hva flags
    have htable : Tabled (L.dir cur) g (pdIndex va) t :=
      htable₁.congr hset.cr3 hp fun i hi => hset.entry htable₁.apart.symm hi
    have hphys : getPhysaddr va t = .ok (f * 4096) := by
      rw [htable.window.getPhysaddr_eq hva.word, htable.table, if_pos ⟨htable.present, hpoints.present⟩, hpoints.frame,
        add32_frame hf.lt hva.aligned]
    have hmade := h.tableMade_new hgnew hva flags hpresent
    have htabled := h.tabled_new hwindow hgnew hva flags
    -- the table is the same whether the frame of the page is marked before it or behind it
    have hsame : (Window.withNewPt s₁ (L.dir cur) g va flags).mem = b.mem := hb ▸ withNewPt_mem hmem _ _ _ _
    have hbitmap : ∀ x, bitmapTest b.bitmap x = (bitmapTest s.bitmap x || decide (x = g)) := fun x =>
      hb ▸ withNewPt_bit s _ g va flags x
    rw [hmap, ok_bind, ht, hphys, ok_bind, if_neg (frame_ne_zero hflow)]
    rw [hb] at hmade htabled
    refine returns_ok (.inr ⟨rfl, b, g, f, hmade, htabled, ⟨hf.lt, ?_⟩, hflow, ?_, fun x => ?_, fun a ha => ?_, hpoints,
      fun j hj hne => ?_⟩)
    · rw [hbitmap, hf.clear, decide_eq_false hgf.symm]
      rfl
    · exact htable.window.cr3.trans htabled.window.cr3.symm
    · rw [hset.bitmap, withNewPt_bit, hbits, hbitmap, Bool.or_right_comm]
    · rw [hset.mem a ha, hsame]
    · rw [← ht, PagingState.entry_setEntry_of_ne (ptIndex_lt va) hj fun he => hne he.2]
      unfold PagingState.entry
      rw [hsame]

end Sound

/-! ### What the kernel relies on -/

/-- Each directory has in its kernel half the entries that some directory had. -/
def KernelFrom (L : Layout) (s t : PagingState) : Prop :=
  ∀ pid < maxProc, ∀ i, 768 ≤ i → i < 1023 → ∃ pid' < maxProc, t.entry (L.dir pid) i = s.entry (L.dir pid') i

namespace KernelFrom

theorem of_same (h : ∀ pid < maxProc, ∀ i < 1024, t.entry (L.dir pid) i = s.entry (L.dir pid) i) : KernelFrom L s t :=
  fun pid hpid i _ hi' => ⟨pid, hpid, h pid hpid i (by omega)⟩

theorem trans (h : KernelFrom L s t) (h' : KernelFrom L t u) : KernelFrom L s u := by
  intro pid hpid i hi hi'
  obtain ⟨pid₁, hpid₁, hsame₁⟩ := h' pid hpid i hi hi'
  obtain ⟨pid₂, hpid₂, hsame₂⟩ := h pid₁ hpid₁ i hi hi'
  exact ⟨pid₂, hpid₂, hsame₁.trans hsame₂⟩

theorem procInit (hpid : pid < maxProc) (hne : pid ≠ 0) : KernelFrom L s (pagingProcInit L pid s) := by
  intro pid' hpid' i hi hi'
  rw [pagingProcInit_entry hpid hne (by omega)]
  split
  · refine ⟨0, by decide, ?_⟩
    rw [procEntry, if_neg (by omega), if_pos (.inl hi)]
  · exact ⟨pid', hpid', rfl⟩

end KernelFrom

/-- A call keeps the ledger, maps no pages of the kernel half but for `A`, and takes no page table from the kernel
half of a directory other than that of `child`. -/
structure Advance (L : Layout) (cur child : ℕ) (A : Set (ℕ × ℕ)) (s t : PagingState) : Prop where
  sound : ∃ owner, Sound L cur t owner
  adds : Adds L A s t
  upper : ∀ pid < maxProc, pid ≠ child → ∀ i, 768 ≤ i → i < 1024 → Present (s.entry (L.dir pid) i) →
    Present (t.entry (L.dir pid) i)

namespace Advance

theorem trans {B : Set (ℕ × ℕ)} (h : Advance L cur child A s t) (h' : Advance L cur child B t u) :
    Advance L cur child (A ∪ B) s u :=
  ⟨h'.sound, h.adds.trans h'.adds, fun pid hpid hne i hi hi' hpresent =>
    h'.upper pid hpid hne i hi hi' (h.upper pid hpid hne i hi hi' hpresent)⟩

theorem mono {B : Set (ℕ × ℕ)} (h : Advance L cur child A s t) (hAB : A ⊆ B) : Advance L cur child B s t :=
  ⟨h.sound, h.adds.mono hAB, h.upper⟩

theorem weaken (h : Advance L cur maxProc A s t) : Advance L cur child A s t :=
  ⟨h.sound, h.adds, fun pid hpid _ => h.upper pid hpid hpid.ne⟩

theorem of_same {owner : ℕ → Owner} (h : Sound L cur t owner) (hadds : Adds L A s t)
    (hpdes : ∀ pid < maxProc, pid ≠ child → ∀ i < 1024, 768 ≤ i → t.entry (L.dir pid) i = s.entry (L.dir pid) i) :
    Advance L cur child A s t := by
  refine ⟨⟨owner, h⟩, hadds, fun pid hpid hne i hi hi' hpresent => ?_⟩
  rw [hpdes pid hpid hne i hi' hi]
  exact hpresent

end Advance

namespace Sound

theorem advance_refl (h : Sound L cur s owner) : Advance L cur child ∅ s s :=
  .of_same h (.refl L s) fun _ _ _ _ _ _ => rfl

theorem allocPage_advance (h : Sound L cur s owner) (child : ℕ) (hva : Paged va) (flags : ℕ) :
    Ensures (Paging.allocPage va flags s) fun r => Advance L cur child {(pdIndex va, ptIndex va)} s r.2 := by
  intro r hok
  obtain ⟨hallocs, owner', hsound⟩ := h.allocPage hva flags r hok
  refine ⟨⟨owner', hsound⟩, h.allocPage_adds hva flags r hok, fun pid hpid _ i _ hi' hpresent => ?_⟩
  by_cases hat : pid = cur ∧ i = pdIndex va
  · obtain ⟨rfl, rfl⟩ := hat
    rw [hallocs.pde (.inl hpresent)]
    exact hpresent
  · rw [hallocs.pdes pid hpid i hi' hat]
    exact hpresent

theorem freePage_advance (h : Sound L cur s owner) (child : ℕ) (hva : Paged va) (hscratch : ¬ScratchVa va) :
    Ensures (Paging.freePage va s) (Advance L cur child ∅ s) := by
  intro t hok
  obtain ⟨hfrees, owner', hsound⟩ := h.freePage hva hscratch t hok
  exact .of_same hsound (h.freePage_adds hva t hok) fun pid hpid _ i hi _ => hfrees.pdes pid hpid i hi

theorem procInit_advance (h : Sound L cur s owner) (hpid : pid < maxProc) :
    Advance L cur pid ∅ s (pagingProcInit L pid s) :=
  .of_same (h.procInit hpid) (h.procInit_adds hpid) fun _ _ hne _ hi _ =>
    (pagingProcInit_within L pid s).entry (fun he => hne (dir_inj he)) hi

end Sound

/-! ### Nothing is mapped that was not -/

/-- The entries of the scratch pages in the page table of the kernel stacks. -/
def scratchEntries : Set ℕ := {j | Scratch kstackPdeIndex j}

/-- Apart from the entries `E`, the page table of the kernel stacks in frame `K` leads to the pages it led to.
The frames `T` were taken, and apart from them and that table only the directory of the child was stored to. -/
structure Restored (L : Layout) (child K : ℕ) (E : Set ℕ) (T : Finset ℕ) (s t : PagingState) : Prop where
  touched : Touched {K, L.dir child} T s t
  entry : ∀ j < 1024, j ∉ E → t.entry K j = s.entry K j ∨ ¬Present (t.entry K j) ∧ ¬Present (s.entry K j)
  kernel : KernelFrom L s t

theorem Restored.mono {E' : Set ℕ} (h : Restored L child K E T s t) (hE : E ⊆ E') : Restored L child K E' T s t :=
  ⟨h.touched, fun j hj hout => h.entry j hj fun he => hout (hE he), h.kernel⟩

namespace Sound

theorem adds_restored (h : Sound L cur s owner) (hK : owner K = tableOf cur kstackPdeIndex) (hchild : child < maxProc)
    (ht : Restored L child K scratchEntries T s t) : Adds L ∅ s t := by
  refine h.adds_foreign hK hchild ht.touched.kept (fun j hj hns hpresent => ?_)
    fun i hi hi' => ht.kernel child hchild i hi hi'
  exact (ht.entry j hj hns).resolve_right fun habsent => habsent.1 hpresent

/-- Through every directory but that of the child, an address is translated as it was. -/
theorem walk_restored (h : Sound L cur s owner) (hK : owner K = tableOf cur kstackPdeIndex) (hchild : child < maxProc)
    (ht : Restored L child K E T s t) (hpid : pid < maxProc) (hother : pid ≠ child) (hva : va < wordSize)
    (hout : pdIndex va = kstackPdeIndex → ptIndex va ∉ E) :
    walk t.mem (L.pageDirectory pid) va = walk s.mem (L.pageDirectory pid) va := by
  have hpde : t.entry (L.dir pid) (pdIndex va) = s.entry (L.dir pid) (pdIndex va) := by
    have hin := h.owned.reserved _ (dir_lt (L := L) hpid)
    refine ht.touched.entry hin (Aside.out ⟨hin, fun he => hother (dir_inj he), ?_⟩) (pdIndex_lt hva)
    exact (h.owned.ne_dir (Owned.owner_ne_free hK) hpid).symm
  refine walk_congr_entries hpde fun hpresent => ?_
  obtain ⟨hused, hdir, hindex⟩ := h.table_place hK hchild hpid hother (pdIndex_lt hva) hpresent
  unfold pteOf
  rw [hpde]
  by_cases hXK : s.entry (L.dir pid) (pdIndex va) / 4096 = K
  · rw [hXK]
    exact ht.entry _ (ptIndex_lt va) (hout (hindex hXK))
  · exact .inl (ht.touched.entry hused (Aside.out ⟨hused, hdir, hXK⟩) (ptIndex_lt va))

end Sound

/-! ### The calls on another directory -/

theorem Ready.keeps (h : Ready L cur K s t) : (∃ owner, Sound L cur t owner) ∧ KernelFrom L s t ∧
    ∀ pid < maxProc, ∀ i, 768 ≤ i → i < 1024 → t.entry (L.dir pid) i = s.entry (L.dir pid) i := by
  obtain ⟨owner, h⟩ := h
  exact ⟨⟨owner, h.toSound⟩, fun pid hpid i hi hi' => ⟨pid, hpid, h.kept pid hpid i hi (by omega)⟩, h.kept⟩

/-- `page_directories[cur]` is current and open to the kernel, has the page table of the kernel stacks in frame `K`,
and is not `page_directories[pid]`. -/
structure Desk (L : Layout) (cur pid K : ℕ) (s : PagingState) : Prop where
  sound : ∃ owner, Sound L cur s owner
  window : Present (s.entry (L.dir cur) 1023)
  kstack : Present (s.entry (L.dir cur) kstackPdeIndex)
  table : s.entry (L.dir cur) kstackPdeIndex / 4096 = K
  lt : pid < maxProc
  other : pid ≠ cur

namespace Desk

theorem site (h : Desk L cur pid K s) : Site (L.dir cur) (L.dir pid) K s := by
  obtain ⟨owner, hs⟩ := h.sound
  rw [← h.table]
  exact hs.site h.window h.kstack h.lt h.other

theorem cur_lt (h : Desk L cur pid K s) : cur < maxProc := by
  obtain ⟨owner, hs⟩ := h.sound
  exact hs.cur_lt

theorem of_sound (h : Desk L cur pid K s) (ht : ∃ owner, Sound L cur t owner)
    (hsame : ∀ i < 1024, t.entry (L.dir cur) i = s.entry (L.dir cur) i) : Desk L cur pid K t := by
  have hkstack := hsame kstackPdeIndex (by decide)
  refine ⟨ht, ?_, ?_, ?_, h.lt, h.other⟩
  · rw [hsame 1023 (by decide)]
    exact h.window
  · rw [hkstack]
    exact h.kstack
  · rw [hkstack]
    exact h.table

theorem owner_table {owner : ℕ → Owner} (h : Desk L cur pid K s) (hs : Sound L cur s owner) :
    owner K = tableOf cur kstackPdeIndex := by
  rw [← h.table]
  exact hs.owned.owner_table hs.cur_lt (by decide) (by decide) h.kstack

theorem scratchOnly_entry (ht : ScratchOnly K s t) : ∀ j < 1024, j ∉ scratchEntries → t.entry K j = s.entry K j := by
  intro j hj hns
  refine ht j hj (fun he => hns ?_) fun he => hns ?_
  · rw [he]
    exact ⟨_, .inl rfl, rfl, rfl⟩
  · rw [he]
    exact ⟨_, .inr rfl, rfl, rfl⟩

/-- The loader, over an empty user half. -/
theorem loadUserImage {src n : ℕ} (h : Desk L cur pid K s)
    (hempty : ∀ p, 0 < p → p < 768 → ¬Present (s.entry (L.dir pid) p)) (hn : 0 < n) (hn' : n ≤ pageSize) :
    Meets (Legible L (L.dir cur) src n s ∧ Legible L (L.dir cur) 0 0 s) (pagingLoadUserImage L pid src n s) fun r =>
      Advance L cur maxProc ∅ s r.2 ∧ KernelFrom L s r.2 ∧ ∃ T, Loaded (L.dir pid) K s r.2 T ∧
        (r.1 = false → Full r.2 ∧ T.card < 4) ∧ (r.1 = true → T.card = 4) := by
  obtain ⟨owner, hs⟩ := h.sound
  have hK := h.owner_table hs
  have hfpt : L.fptFrame ≠ K := (hs.owned.ne_fpt (Owned.owner_ne_free hK)).symm
  have hmeets : Meets _ (pagingLoadUserImage L pid src n s) _ :=
    h.site.callSite.pagingLoadUserImage_meets hfpt h.lt hempty hn hn'
  refine ⟨fun r hr => ?_, hmeets.2⟩
  obtain ⟨T, hloaded, hfull⟩ := hmeets.1 r hr
  have hready := (Working.start hs h.kstack).pagingLoadUserImage h.lt src n r hr
  rw [h.table] at hready
  obtain ⟨⟨owner', hsound⟩, hkernel, hkept⟩ := hready.keeps
  refine ⟨.of_same hsound ?_ fun pid' hpid' _ i hi hi' => hkept pid' hpid' i hi' hi, hkernel, T, hloaded, hfull⟩
  exact hs.adds_restored hK h.lt
    ⟨hloaded.touched, fun j hj hout => .inl (scratchOnly_entry hloaded.scratch j hj hout), hkernel⟩

/-- Where no frame is free, a round of the copy changes nothing. -/
theorem forkPde_full (hwindow : Window s d) (hlow : ∀ f < reservedFrames, InUse s f) (hfull : Full s) (hp : p < 1024) :
    Ensures (forkPde L pid s p) fun r => r.2 = s := by
  unfold forkPde
  rw [hwindow.read_pde hp, ok_bind]
  split
  · exact ensures_ok rfl
  · rcases allocFrame_split hlow with ⟨-, hr⟩ | ⟨g, hg, -, -⟩
    · dsimp only
      rw [hr, if_pos rfl]
      exact ensures_ok rfl
    · exact absurd (hfull g hg.lt) (by rw [InUse, hg.clear]; exact Bool.false_ne_true)

/-- So only the directory of the child is stored to by a copy that fails there. -/
theorem forkCopy_full (h : Desk L cur pid K s) (hfull : Full s) :
    Ensures (pagingForkCopy L pid s) fun r => r.1 = false → Within (L.dir pid) s r.2 := by
  have hsite := h.site
  unfold pagingForkCopy
  rw [hsite.bench.window.read_pde (by decide), ok_bind, setWord_dir]
  obtain ⟨s₁, hs₁⟩ : ∃ s₁, s.setEntry (L.dir pid) kstackPdeIndex (s.entry (L.dir cur) kstackPdeIndex) = s₁ := ⟨_, rfl⟩
  have hshare : Within (L.dir pid) s s₁ := hs₁ ▸ within_setEntry (by decide)
  have hsite₁ := hsite.touched ((Touched.refl {K, L.dir pid} s).and_then (Touched.of_within hshare) (by simp))
  have hfull₁ : Full s₁ := by
    intro f hf
    rw [InUse, hshare.bitmap]
    exact hfull f hf
  rw [hs₁]
  have hloop : Ensures (tryEach (forkPde L pid) (List.range' 1 767) s₁) fun r => r.2 = s₁ := by
    refine (ensures_tryEach (I := fun t => t = s₁) (J := fun t => t = s₁) (fun p hp t ht => ?_) rfl).mono fun r hr => ?_
    · rw [ht]
      have hp : p < 1024 := by
        have := List.mem_range'_1.mp hp
        omega
      refine (forkPde_full hsite₁.bench.window hsite₁.reserved hfull₁ hp).mono fun r hr => ?_
      split
      · exact hr
      · exact hr
    · split at hr
      · exact hr
      · exact hr
  refine hloop.bind fun r hr => ?_
  obtain ⟨ok, t⟩ := r
  cases ok with
  | false =>
    refine ensures_ok fun _ => ?_
    obtain rfl : t = s₁ := hr
    exact hshare
  | true =>
    intro r hr
    obtain ⟨u, -, hr⟩ := bind_eq_ok.mp hr
    obtain ⟨v, -, hr⟩ := bind_eq_ok.mp hr
    obtain rfl := Except.ok.inj hr
    intro hfalse
    cases hfalse

/-- `paging_fork_copy`, into an empty user half. -/
theorem forkCopy (h : Desk L cur pid K s) (hempty : ∀ p, 0 < p → p < 768 → ¬Present (s.entry (L.dir pid) p)) :
    Returns (pagingForkCopy L pid s) fun r => Advance L cur maxProc ∅ s r.2 ∧ KernelFrom L s r.2 ∧
      if r.1 then ∃ T, ForkCopied (L.dir cur) (L.dir pid) K s r.2 T
      else ∃ T, GaveUp {K, L.dir pid} K (forkDemand s (L.dir cur)) s r.2 T := by
  obtain ⟨owner, hs⟩ := h.sound
  have hK := h.owner_table hs
  refine ((pagingForkCopy_returns h.site hempty).and_ensures (hs.pagingForkCopy h.lt h.kstack)).mono fun r hr => ?_
  obtain ⟨hcopied, K', owner', hready⟩ := hr
  -- one entry of the child's kernel half is that of the current directory
  have hshare : ∀ pid' < maxProc, ∀ i, 768 ≤ i → i < 1024 → r.2.entry (L.dir pid') i =
      if L.dir pid' = L.dir pid ∧ i = kstackPdeIndex then s.entry (L.dir cur) kstackPdeIndex
      else s.entry (L.dir pid') i := by
    intro pid' hpid' i hi hi'
    rw [hready.kept pid' hpid' i hi hi', Sound.shareKstack,
      PagingState.entry_setEntry (by decide) hi' PagingState.entry_lt]
  have hkernel : KernelFrom L s r.2 := by
    intro pid' hpid' i hi hi'
    rw [hshare pid' hpid' i hi (by omega)]
    split
    · rename_i hat
      exact ⟨cur, hs.cur_lt, by rw [hat.2]⟩
    · exact ⟨pid', hpid', rfl⟩
  have htouched : ∃ T, Touched {K, L.dir pid} T s r.2 ∧ ScratchOnly K s r.2 := by
    split at hcopied
    · obtain ⟨T, hcopied⟩ := hcopied
      exact ⟨T, hcopied.touched, hcopied.scratch⟩
    · obtain ⟨T, hgave⟩ := hcopied
      exact ⟨T, hgave.touched, hgave.scratch⟩
  obtain ⟨T, htouched, hscratch⟩ := htouched
  refine ⟨⟨⟨owner', hready.toSound⟩, ?_, fun pid' hpid' _ i hi hi' hpresent => ?_⟩, hkernel, hcopied⟩
  · exact hs.adds_restored hK h.lt
      ⟨htouched, fun j hj hout => .inl (scratchOnly_entry hscratch j hj hout), hkernel⟩
  · rw [hshare pid' hpid' i hi hi']
    split
    · exact h.kstack
    · exact hpresent

theorem procTeardown (h : Desk L cur pid K s) : Returns (pagingProcTeardown L pid s) fun t =>
    Advance L cur maxProc ∅ s t ∧ KernelFrom L s t ∧ TornDown (L.dir pid) K 768 s t := by
  obtain ⟨owner, hs⟩ := h.sound
  have hK := h.owner_table hs
  have hsite := hs.teardownSite h.site.bench h.lt h.other
  refine (hsite.pagingProcTeardown_returns.and_ensures
    ((Working.start hs h.kstack).pagingProcTeardown h.lt)).mono fun t ht => ?_
  obtain ⟨htorn, hready⟩ := ht
  rw [h.table] at hready
  obtain ⟨⟨owner', hsound⟩, hkernel, hkept⟩ := hready.keeps
  refine ⟨.of_same hsound ?_ fun pid' hpid' _ i hi hi' => hkept pid' hpid' i hi' hi, hkernel, htorn⟩
  refine hs.adds_foreign hK h.lt (fun a _ hout => htorn.kept a (fun he => hout (.inl he)) fun he => hout (.inr he))
    (fun j hj hns _ => scratchOnly_entry htorn.scratch j hj hns) fun i hi hi' => hkernel pid h.lt i hi hi'

end Desk

/-- Every frame that was taken is one free frame less. -/
theorem Touched.freeCount {W : Set ℕ} (h : Touched W T s t) : physFreeCount t.bitmap + T.card = physFreeCount s.bitmap := by
  rw [physFreeCount_eq, physFreeCount_eq]
  have hsplit : freeFrames s = freeFrames t ∪ T := by
    ext f
    rw [Finset.mem_union, mem_freeFrames, mem_freeFrames]
    constructor
    · intro hf
      by_cases hT : f ∈ T
      · exact .inr hT
      · refine .inl ⟨hf.lt, ?_⟩
        rw [h.bitmap, hf.clear, decide_eq_false hT]
        rfl
    · rintro (hf | hf)
      · exact (h.newFrame hf).1
      · exact h.fresh f hf
  have hdisjoint : Disjoint (freeFrames t) T := by
    rw [Finset.disjoint_left]
    exact fun f hf => (h.newFrame (mem_freeFrames.mp hf)).2
  rw [hsplit, Finset.card_union_of_disjoint hdisjoint]

theorem full_iff : Full s ↔ physFreeCount s.bitmap = 0 := by
  rw [physFreeCount_eq, Finset.card_eq_zero, Finset.eq_empty_iff_forall_notMem]
  refine forall_congr' fun f => ?_
  rw [mem_freeFrames]
  constructor
  · intro h hf
    exact Bool.false_ne_true (hf.clear.symm.trans (h hf.lt))
  · intro h hlt
    by_contra hused
    exact h ⟨hlt, Bool.eq_false_iff.mpr hused⟩

end HekaOS.Paging
