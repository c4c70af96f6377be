import HekaOS.ProcessSpaces

/-!
# New directories

The entries that `paging_init` and `paging_proc_init` leave, and that the ledger covers them.
-/

namespace HekaOS.Paging
open MachineWord KernelMemory KernelTriples ByteMemory PageWalk WordBitmap PhysPageFrame AddressMap
open Tasks (maxProc pageSize)

variable {L : Layout} {s t : PagingState} {owner : ℕ → Owner} {w : ℕ → ℕ} {l : List ℕ}
  {cur d d' f i j pid v : ℕ}

/-- A table filled entry by entry. -/
def fillTable (d : ℕ) (w : ℕ → ℕ) (l : List ℕ) (s : PagingState) : PagingState :=
  l.foldl (fun s i => s.setEntry d i (w i)) s

theorem fillTable_entry (hl : ∀ i ∈ l, i < 1024) (hw : ∀ i ∈ l, w i < wordSize) (hj : j < 1024) :
    (fillTable d w l s).entry f j = if f = d ∧ j ∈ l then w j else s.entry f j := by
  induction l generalizing s with
  | nil => simp [fillTable]
  | cons i l ih =>
    have hi := hl i List.mem_cons_self
    have ih := ih (s := s.setEntry d i (w i)) (fun k hk => hl k (List.mem_cons_of_mem i hk))
      fun k hk => hw k (List.mem_cons_of_mem i hk)
    change (fillTable d w l (s.setEntry d i (w i))).entry f j = _
    rw [ih, PagingState.entry_setEntry hi hj (hw i List.mem_cons_self)]
    by_cases hji : j = i
    · subst hji
      by_cases hf : f = d
      · simp [hf]
      · simp [hf]
    · simp [hji]

theorem fillTable_cr3 : (fillTable d w l s).cr3 = s.cr3 := by
  induction l generalizing s with
  | nil => rfl
  | cons i l ih => exact ih

theorem fillTable_bitmap : (fillTable d w l s).bitmap = s.bitmap := by
  induction l generalizing s with
  | nil => rfl
  | cons i l ih => exact ih

/-- A table filled from another one. -/
theorem foldl_copy (hne : d' ≠ d) (hl : ∀ i ∈ l, i < 1024) :
    l.foldl (fun s i => s.setEntry d i (s.entry d' i)) s = fillTable d (s.entry d') l s := by
  have hloop : ∀ t : PagingState, (∀ i < 1024, t.entry d' i = s.entry d' i) →
      l.foldl (fun s i => s.setEntry d i (s.entry d' i)) t = fillTable d (s.entry d') l t := by
    induction l with
    | nil => exact fun t _ => rfl
    | cons i l ih =>
      intro t ht
      have hi := hl i List.mem_cons_self
      change l.foldl _ (t.setEntry d i (t.entry d' i)) = fillTable d (s.entry d') l (t.setEntry d i (s.entry d' i))
      rw [ht i hi]
      refine ih (fun k hk => hl k (List.mem_cons_of_mem i hk)) _ fun k hk => ?_
      rw [PagingState.entry_setEntry_of_ne hi hk fun he => hne he.1]
      exact ht k hk
  exact hloop s fun _ _ => rfl

theorem setWord_dir : s.setWord (L.pageDirectory pid + 4 * i) v = s.setEntry (L.dir pid) i v := rfl

theorem setWord_dir_zero : s.setWord (L.pageDirectory pid) v = s.setEntry (L.dir pid) 0 v := by
  rw [← setWord_dir, Nat.mul_zero, Nat.add_zero]

theorem load_dir : load32 s.mem (L.pageDirectory pid + 4 * i) = s.entry (L.dir pid) i := rfl

theorem load_dir_zero : load32 s.mem (L.pageDirectory pid) = s.entry (L.dir pid) 0 := by
  rw [← load_dir, Nat.mul_zero, Nat.add_zero]

/-- The entries of a directory made by `paging_proc_init`. -/
def procEntry (L : Layout) (pid : ℕ) (s : PagingState) (j : ℕ) : ℕ :=
  if j = 1023 then L.pageDirectory pid ||| (pagePresent ||| pageRw)
  else if 768 ≤ j ∨ j = 0 then s.entry (L.dir 0) j
  else pageRw

theorem points_dir (hpid : pid < maxProc) : Points (L.pageDirectory pid ||| (pagePresent ||| pageRw)) (L.dir pid) :=
  points_or ((dir_lt hpid).trans (by decide)) (by decide) (by decide)

/-- The first two stages of `paging_proc_init`. -/
def emptyDirectory (L : Layout) (pid : ℕ) (s : PagingState) : PagingState :=
  let s := fillTable (L.dir pid) (fun _ => pageRw) (List.range 1024) s
  s.setEntry (L.dir pid) 0 (s.entry (L.dir 0) 0)

theorem kernel_index_lt : ∀ i ∈ List.range' 768 255, i < 1024 := by
  intro i hi
  have := List.mem_range'_1.mp hi
  omega

theorem pagingProcInit_eq (hne : pid ≠ 0) : pagingProcInit L pid s =
    (fillTable (L.dir pid) ((emptyDirectory L pid s).entry (L.dir 0)) (List.range' 768 255)
      (emptyDirectory L pid s)).setEntry (L.dir pid) 1023 (L.pageDirectory pid ||| (pagePresent ||| pageRw)) := by
  have hdir : L.dir 0 ≠ L.dir pid := fun he => hne (dir_inj he).symm
  rw [← foldl_copy hdir kernel_index_lt]
  simp only [pagingProcInit, setWord_dir, setWord_dir_zero, load_dir, load_dir_zero, emptyDirectory, fillTable]

theorem emptyDirectory_entry (hne : pid ≠ 0) (hj : j < 1024) : (emptyDirectory L pid s).entry f j =
    if f = L.dir pid then (if j = 0 then s.entry (L.dir 0) 0 else pageRw) else s.entry f j := by
  have hdir : L.dir 0 ≠ L.dir pid := fun he => hne (dir_inj he).symm
  have hall : ∀ i ∈ List.range 1024, i < 1024 := fun i hi => List.mem_range.mp hi
  have hrw : pageRw < wordSize := by decide
  unfold emptyDirectory
  dsimp only
  rw [PagingState.entry_setEntry (by decide) hj PagingState.entry_lt,
    fillTable_entry hall (fun _ _ => hrw) (by decide), fillTable_entry hall (fun _ _ => hrw) hj]
  by_cases hf : f = L.dir pid
  · simp [hf, hdir, hj]
  · simp [hf]

theorem pagingProcInit_entry (hpid : pid < maxProc) (hne : pid ≠ 0) (hj : j < 1024) :
    (pagingProcInit L pid s).entry f j = if f = L.dir pid then procEntry L pid s j else s.entry f j := by
  have hdir : L.dir 0 ≠ L.dir pid := fun he => hne (dir_inj he).symm
  have hself := (points_dir (L := L) hpid).word
  rw [pagingProcInit_eq hne, PagingState.entry_setEntry (by decide) hj hself,
    fillTable_entry kernel_index_lt (fun _ _ => PagingState.entry_lt) hj, emptyDirectory_entry hne hj,
    emptyDirectory_entry hne hj, if_neg hdir]
  unfold procEntry
  by_cases hf : f = L.dir pid
  · by_cases hlast : j = 1023
    · simp [hf, hlast]
    · by_cases hhigh : 768 ≤ j
      · simp [hf, hlast, hhigh]
        omega
      · by_cases h0 : j = 0
        · subst h0
          simp [hf]
        · simp [hf, hlast, hhigh, h0]
  · simp [hf]

theorem pagingProcInit_cr3 (hne : pid ≠ 0) : (pagingProcInit L pid s).cr3 = s.cr3 := by
  rw [pagingProcInit_eq hne, PagingState.setEntry_cr3, fillTable_cr3, emptyDirectory, PagingState.setEntry_cr3,
    fillTable_cr3]

theorem pagingProcInit_bitmap (hne : pid ≠ 0) : (pagingProcInit L pid s).bitmap = s.bitmap := by
  rw [pagingProcInit_eq hne, PagingState.setEntry_bitmap, fillTable_bitmap, emptyDirectory,
    PagingState.setEntry_bitmap, fillTable_bitmap]

/-! ### Any pid

`paging_proc_init` of pid 0 overwrites the entries it would copy. -/

theorem within_foldl {F : PagingState → ℕ → ℕ} (hl : ∀ i ∈ l, i < 1024) :
    Within d s (l.foldl (fun s i => s.setEntry d i (F s i)) s) := by
  induction l generalizing s with
  | nil => exact .refl d s
  | cons i l ih =>
    rw [List.foldl_cons]
    exact (within_setEntry (hl i List.mem_cons_self)).trans (ih fun k hk => hl k (List.mem_cons_of_mem i hk))

theorem foldl_entry_of_notMem {F : PagingState → ℕ → ℕ} (hl : ∀ i ∈ l, i < 1024) (hj : j < 1024) (hout : j ∉ l) :
    (l.foldl (fun s i => s.setEntry d i (F s i)) s).entry d j = s.entry d j := by
  induction l generalizing s with
  | nil => rfl
  | cons i l ih =>
    rw [List.foldl_cons, ih (fun k hk => hl k (List.mem_cons_of_mem i hk)) fun hmem =>
      hout (List.mem_cons_of_mem i hmem)]
    refine PagingState.entry_setEntry_of_ne (hl i List.mem_cons_self) hj fun he => hout ?_
    rw [he.2]
    exact List.mem_cons_self

/-- A table copied to itself. -/
theorem foldl_self_entry (hl : ∀ i ∈ l, i < 1024) (hj : j < 1024) :
    (l.foldl (fun s i => s.setEntry d i (s.entry d i)) s).entry d j = s.entry d j := by
  induction l generalizing s with
  | nil => rfl
  | cons i l ih =>
    rw [List.foldl_cons, ih fun k hk => hl k (List.mem_cons_of_mem i hk),
      PagingState.entry_setEntry (hl i List.mem_cons_self) hj PagingState.entry_lt]
    split
    · rename_i he
      rw [he.2]
    · rfl

/-- The stages of `paging_proc_init`. -/
theorem pagingProcInit_stages (L : Layout) (pid : ℕ) (s : PagingState) : pagingProcInit L pid s =
    ((List.range' 768 255).foldl (fun s i => s.setEntry (L.dir pid) i (s.entry (L.dir 0) i))
      (emptyDirectory L pid s)).setEntry (L.dir pid) 1023 (L.pageDirectory pid ||| (pagePresent ||| pageRw)) := by
  simp only [pagingProcInit, setWord_dir, setWord_dir_zero, load_dir, load_dir_zero, emptyDirectory, fillTable]

theorem range_lt : ∀ i ∈ List.range 1024, i < 1024 := fun _ hi => List.mem_range.mp hi

theorem emptyDirectory_within (L : Layout) (pid : ℕ) (s : PagingState) :
    Within (L.dir pid) s (emptyDirectory L pid s) :=
  (within_foldl range_lt).trans (within_setEntry (by decide))

/-- Only the directory itself is written. -/
theorem pagingProcInit_within (L : Layout) (pid : ℕ) (s : PagingState) :
    Within (L.dir pid) s (pagingProcInit L pid s) := by
  rw [pagingProcInit_stages]
  exact ((emptyDirectory_within L pid s).trans (within_foldl kernel_index_lt)).trans (within_setEntry (by decide))

/-- The user half is empty. -/
theorem pagingProcInit_user (L : Layout) (pid : ℕ) (s : PagingState) (hj : 0 < j) (hj' : j < 768) :
    (pagingProcInit L pid s).entry (L.dir pid) j = pageRw := by
  have hout : j ∉ List.range' 768 255 := by
    intro hmem
    have := (List.mem_range'_1.mp hmem).1
    omega
  have hrw : pageRw < wordSize := by decide
  rw [pagingProcInit_stages, PagingState.entry_setEntry_of_ne (by decide) (by omega) fun he => absurd he.2 (by omega),
    foldl_entry_of_notMem kernel_index_lt (by omega) hout, emptyDirectory,
    PagingState.entry_setEntry_of_ne (by decide) (by omega) fun he => absurd he.2 (by omega),
    fillTable_entry range_lt (fun _ _ => hrw) (by omega), if_pos]
  exact ⟨rfl, List.mem_range.mpr (by omega)⟩

/-- `paging_proc_init` of pid 0 leaves the recursive entry alone. -/
theorem pagingProcInit_zero (hj : j < 1024) : (pagingProcInit L 0 s).entry (L.dir 0) j =
    if j = 1023 then L.pageDirectory 0 ||| (pagePresent ||| pageRw) else pageRw := by
  have hrw : pageRw < wordSize := by decide
  have hself := (points_dir (L := L) (by decide : 0 < maxProc)).word
  have hfill : ∀ k < 1024, (fillTable (L.dir 0) (fun _ => pageRw) (List.range 1024) s).entry (L.dir 0) k = pageRw := by
    intro k hk
    rw [fillTable_entry range_lt (fun _ _ => hrw) hk, if_pos ⟨rfl, List.mem_range.mpr hk⟩]
  have hempty : (emptyDirectory L 0 s).entry (L.dir 0) j = pageRw := by
    rw [emptyDirectory, PagingState.entry_setEntry (by decide) hj PagingState.entry_lt]
    split
    · exact hfill 0 (by decide)
    · exact hfill j hj
  rw [pagingProcInit_stages, PagingState.entry_setEntry (by decide) hj hself]
  split
  · rename_i he
    rw [if_pos he.2]
  · rename_i he
    rw [if_neg fun h => he ⟨rfl, h⟩, foldl_self_entry kernel_index_lt hj, hempty]

/-- A directory is written anew, with entries that the ledger allows for. -/
theorem Owned.redirect (h : Owned L s.entry s.bitmap owner) (hpid : pid < maxProc) (hw : Within (L.dir pid) s t)
    (hleads : ∀ i < 1024, Present (t.entry (L.dir pid) i) → Leads L owner pid i (t.entry (L.dir pid) i / 4096)) :
    Owned L t.entry s.bitmap owner := by
  refine ⟨h.used, h.reserved, fun j hj => ?_, fun pid' hpid' i hi hpresent => ?_,
    fun K i pid' hK j hj hscratch hpresent => ?_⟩
  · rw [hw.entry (dir_ne_fpt hpid).symm hj]
    exact h.fpt j hj
  · by_cases hsame : L.dir pid' = L.dir pid
    · obtain rfl := dir_inj hsame
      exact hleads i hi hpresent
    · rw [hw.entry hsame hi] at hpresent ⊢
      exact h.pde pid' hpid' i hi hpresent
  · have hKd : K ≠ L.dir pid := h.ne_dir (Owned.table_ne_free hK) hpid
    rw [hw.entry hKd hj] at hpresent ⊢
    exact h.pte K i pid' hK j hj hscratch hpresent

/-- The recursive entry. -/
theorem leads_self (hlast : i = 1023) : Leads L owner pid i (L.dir pid) := by
  subst hlast
  exact ⟨fun hc => absurd hc (by decide), fun _ => rfl, fun _ hc => absurd hc (by decide)⟩

/-- The new directory shares the tables of the kernel half, and leads to no others. -/
theorem Owned.procInit (h : Owned L s.entry s.bitmap owner) (hpid : pid < maxProc) :
    Owned L (pagingProcInit L pid s).entry s.bitmap owner := by
  have h0 : 0 < maxProc := by decide
  refine h.redirect hpid (pagingProcInit_within L pid s) fun i hi hpresent => ?_
  by_cases hlast : i = 1023
  · have hself : (pagingProcInit L pid s).entry (L.dir pid) 1023 = L.pageDirectory pid ||| (pagePresent ||| pageRw) := by
      rw [pagingProcInit_stages]
      exact PagingState.entry_setEntry_self (points_dir hpid).word
    subst hlast
    rw [hself, (points_dir hpid).frame]
    exact leads_self rfl
  · by_cases hzero : pid = 0
    · subst hzero
      rw [pagingProcInit_zero hi, if_neg hlast] at hpresent
      exact absurd hpresent (by decide)
    · rw [pagingProcInit_entry hpid hzero hi, if_pos rfl] at hpresent ⊢
      unfold procEntry at hpresent ⊢
      rw [if_neg hlast] at hpresent ⊢
      split
      · rename_i hshared
        rw [if_pos hshared] at hpresent
        have hleads := h.pde 0 h0 i hi hpresent
        refine ⟨hleads.first, fun hc => absurd hc hlast, fun hpos hlt => ?_⟩
        rw [hleads.table hpos hlt]
        exact tableOf_kernel (by omega)
      · rename_i hshared
        rw [if_neg hshared] at hpresent
        exact absurd hpresent (by decide)

theorem Sound.procInit {cur : ℕ} (h : Sound L cur s owner) (hpid : pid < maxProc) :
    Sound L cur (pagingProcInit L pid s) owner := by
  have hw := pagingProcInit_within L pid s
  refine ⟨?_, h.cur_lt, hw.cr3.trans h.cr3⟩
  rw [hw.bitmap]
  exact h.owned.procInit hpid

/-- The entries that `paging_init` leaves. -/
def bootEntry (L : Layout) (mem : Memory) (f j : ℕ) : ℕ :=
  if f = L.dir 0 then
    if j = 1023 then L.pageDirectory 0 ||| (pagePresent ||| pageRw)
    else if j = 0 then L.firstPageTable ||| (pagePresent ||| pageRw)
    else pageRw
  else if f = L.fptFrame then j * 4096 ||| (pagePresent ||| pageRw)
  else load32 mem (f * 4096 + 4 * j)

theorem points_frame (hf : f < reservedFrames) : Points (f * 4096 ||| (pagePresent ||| pageRw)) f :=
  points_or (hf.trans (by decide)) (by decide) (by decide)

theorem points_fpt (L : Layout) : Points (L.firstPageTable ||| (pagePresent ||| pageRw)) L.fptFrame :=
  points_frame L.fpt_low

theorem pagingInit_eq (mem : Memory) (bitmap : Bitmap) : pagingInit L mem bitmap =
    ((fillTable L.fptFrame (fun i => i * 4096 ||| (pagePresent ||| pageRw)) (List.range 1024)
      (fillTable (L.dir 0) (fun _ => pageRw) (List.range 1024) ⟨mem, L.pageDirectory 0, bitmap⟩)).setEntry (L.dir 0) 0
        (L.firstPageTable ||| (pagePresent ||| pageRw))).setEntry (L.dir 0) 1023
          (L.pageDirectory 0 ||| (pagePresent ||| pageRw)) := by
  have hfpt : ∀ (s : PagingState) (i v : ℕ), s.setWord (L.firstPageTable + 4 * i) v = s.setEntry L.fptFrame i v :=
    fun _ _ _ => rfl
  simp only [pagingInit, setWord_dir, setWord_dir_zero, hfpt, fillTable, pageSize]

theorem pagingInit_entry {mem : Memory} {bitmap : Bitmap} (hj : j < 1024) :
    (pagingInit L mem bitmap).entry f j = bootEntry L mem f j := by
  have h0 : 0 < maxProc := by decide
  have hall : ∀ i ∈ List.range 1024, i < 1024 := fun i hi => List.mem_range.mp hi
  have hrw : pageRw < wordSize := by decide
  have hframe : ∀ i ∈ List.range 1024, i * 4096 ||| (pagePresent ||| pageRw) < wordSize := fun i hi =>
    (points_frame (List.mem_range.mp hi)).word
  rw [pagingInit_eq, PagingState.entry_setEntry (by decide) hj (points_dir h0).word,
    PagingState.entry_setEntry (by decide) hj (points_fpt L).word, fillTable_entry hall hframe hj,
    fillTable_entry hall (fun _ _ => hrw) hj]
  unfold bootEntry
  have hne := dir_ne_fpt (L := L) h0
  by_cases hf : f = L.dir 0
  · simp [hf, hne, hj]
  · by_cases hfpt : f = L.fptFrame
    · simp [hfpt, hne.symm, hj]
    · simp [hf, hfpt]
      rfl

theorem pagingInit_cr3 (mem : Memory) (bitmap : Bitmap) : (pagingInit L mem bitmap).cr3 = L.pageDirectory 0 := by
  rw [pagingInit_eq, PagingState.setEntry_cr3, PagingState.setEntry_cr3, fillTable_cr3, fillTable_cr3]

theorem pagingInit_bitmap (mem : Memory) (bitmap : Bitmap) : (pagingInit L mem bitmap).bitmap = bitmap := by
  rw [pagingInit_eq, PagingState.setEntry_bitmap, PagingState.setEntry_bitmap, fillTable_bitmap, fillTable_bitmap]

/-- The image is loaded: `page_directories` is cleared. -/
def Cleared (L : Layout) (mem : Memory) : Prop :=
  ∀ pid < maxProc, ∀ j < 1024, load32 mem (L.pageDirectory pid + 4 * j) = 0

/-- At boot no frame serves as anything. -/
theorem sound_pagingInit {mem : Memory} (hmem : Cleared L mem) (old : Bitmap) :
    Sound L 0 (pagingInit L mem (physMemInit old)) fun _ => .free := by
  have h0 : 0 < maxProc := by decide
  have hinit := represents_init old
  refine ⟨⟨fun f hf => absurd rfl hf, fun f hf => ?_, fun j hj => ?_, fun pid hpid i hi hpresent => ?_,
    fun K i pid hK => nomatch hK⟩, h0, pagingInit_cr3 _ _⟩
  · rw [pagingInit_bitmap]
    exact (hinit.bit f (hf.trans (by decide))).mpr (.inl hf)
  · rw [pagingInit_entry hj, bootEntry, if_neg (dir_ne_fpt h0).symm, if_pos rfl, (points_frame hj).frame]
    exact hj
  · rw [pagingInit_entry hi] at hpresent ⊢
    unfold bootEntry at hpresent ⊢
    by_cases hd : L.dir pid = L.dir 0
    · obtain rfl := dir_inj hd
      rw [if_pos rfl] at hpresent ⊢
      split
      · rename_i hlast
        subst hlast
        rw [(points_dir h0).frame]
        exact ⟨fun hc => absurd hc (by decide), fun _ => rfl, fun _ hc => absurd hc (by decide)⟩
      · rename_i hlast
        rw [if_neg hlast] at hpresent
        split
        · rename_i hfirst
          subst hfirst
          rw [(points_fpt L).frame]
          exact ⟨fun _ => rfl, fun hc => absurd hc (by decide), fun hc => absurd hc (by decide)⟩
        · rename_i hfirst
          rw [if_neg hfirst] at hpresent
          exact absurd hpresent (by decide)
    · rw [if_neg hd, if_neg (dir_ne_fpt hpid)] at hpresent
      have hzero := hmem pid hpid i hi
      change load32 mem (L.dir pid * 4096 + 4 * i) = 0 at hzero
      rw [hzero] at hpresent
      exact absurd hpresent (by decide)

end HekaOS.Paging
