import HekaOS.PagingEntries
import HekaOS.PhysAllocator

/-!
# What `map_page` and its kin do to the tables

The calls that work through the recursive window, as equations: which entry they store, and what a
new page table holds.
-/

namespace HekaOS.Paging
open MachineWord KernelMemory KernelTriples ByteMemory PageWalk WordBitmap PhysPageFrame AddressMap
open Tasks (maxProc pageSize)

variable {s t : PagingState} {d K f g i j p q n v va flags fl : ℕ}

/-- An entry made of the address of a frame and flags. -/
structure Points (e f : ℕ) : Prop where
  present : Present e
  frame : e / 4096 = f
  word : e < wordSize

theorem points_or (hf : f < 2 ^ 20) (hfl : fl < 4096) (hodd : fl % 2 = 1) : Points (f * 4096 ||| fl) f := by
  have hsum : f * 4096 ||| fl = f * 4096 + fl := or_low (k := 12) hfl
  rw [hsum]
  refine ⟨?_, by omega, ?_⟩
  · unfold Present
    omega
  · simp only [wordSize]
    omega

theorem or_one_odd (x : ℕ) : (x ||| 1) % 2 = 1 := by
  rw [Nat.or_mod_two_eq_one]
  exact .inr rfl

/-- The entry that `map_page` stores. -/
theorem points_pte (hf : f < 2 ^ 20) (flags : ℕ) : Points (f * 4096 ||| (flags &&& 0xFFF) ||| 0x01) f := by
  rw [Nat.or_assoc]
  refine points_or hf ?_ (or_one_odd _)
  have hmask : flags &&& 0xFFF < 2 ^ 12 := by
    rw [and_offset]
    omega
  exact Nat.or_lt_two_pow hmask (by decide)

/-- The entry that `map_page` stores for a new page table. -/
theorem points_pde (hf : f < 2 ^ 20) (flags : ℕ) :
    Points (f * 4096 ||| (pagePresent ||| pageRw ||| (flags &&& pageUser))) f := by
  have hswap : pagePresent ||| pageRw ||| (flags &&& pageUser) = (pageRw ||| (flags &&& pageUser)) ||| 1 := by
    rw [Nat.or_assoc, Nat.or_comm]
    rfl
  rw [hswap]
  refine points_or hf ?_ (or_one_odd _)
  have huser : flags &&& pageUser < 2 ^ 12 := lt_of_le_of_lt Nat.and_le_right (by decide)
  exact Nat.or_lt_two_pow (Nat.or_lt_two_pow (by decide) huser) (by decide)

/-- The entry of a fork: a new frame with the flags of a present entry. -/
theorem points_flags {e : ℕ} (hf : f < 2 ^ 20) (he : Present e) : Points (f * 4096 ||| (e &&& 0xFFF)) f := by
  rw [and_offset]
  refine points_or hf (Nat.mod_lt _ (by decide)) ?_
  unfold Present at he
  omega

/-- A frame that `phys_alloc_frame` has found. -/
structure NewFrame (bm : Bitmap) (g : ℕ) : Prop where
  lt : g < physTotalFrames
  clear : bitmapTest bm g = false

theorem allocFrame_cases (bm : Bitmap) :
    (physAllocFrame bm).1 = 0 ∨ ∃ g, NewFrame bm g ∧ physAllocFrame bm = (g * 4096, bitmapSet bm g) := by
  rcases physAllocFrame_spec bm with ⟨g, hlt, hclear, -, hr⟩ | ⟨-, hr⟩
  · exact .inr ⟨g, ⟨hlt, hclear⟩, hr⟩
  · left
    rw [hr]

namespace Window

theorem read_pde (h : Window s d) (hp : p < 1024) : s.read (recursivePdBase + 4 * p) = .ok (s.entry d p) :=
  h.shows_pd.read_eq hp

theorem getPhysaddr_eq (h : Window s d) (hva : va < wordSize) :
    getPhysaddr va s = .ok (if Present (s.entry d (pdIndex va)) ∧
        Present (s.entry (s.entry d (pdIndex va) / 4096) (ptIndex va)) then
      add32 (s.entry (s.entry d (pdIndex va) / 4096) (ptIndex va) / 4096 * 4096) (va % 4096) else 0) := by
  have hp := pdIndex_lt hva
  unfold getPhysaddr
  rw [h.read_pde hp, ok_bind]
  by_cases hpde : Present (s.entry d (pdIndex va))
  · rw [if_neg (mt present_iff.mp (not_not.mpr hpde)), (h.shows_pt hp hpde).read_eq (ptIndex_lt va), ok_bind]
    by_cases hpte : Present (s.entry (s.entry d (pdIndex va) / 4096) (ptIndex va))
    · rw [if_neg (mt present_iff.mp (not_not.mpr hpte)), if_pos ⟨hpde, hpte⟩,
        clearLow_entry PagingState.entry_lt, and_offset]
    · rw [if_pos (present_iff.mpr hpte), if_neg fun hc => hpte hc.2]
  · rw [if_pos (present_iff.mpr hpde), if_neg fun hc => hpde hc.1]

theorem unmapPage_eq (h : Window s d) (hva : va < wordSize) (haligned : va % 4096 = 0) :
    unmapPage va s = .ok (if Present (s.entry d (pdIndex va)) ∧
        Present (s.entry (s.entry d (pdIndex va) / 4096) (ptIndex va)) then
      s.setEntry (s.entry d (pdIndex va) / 4096) (ptIndex va) 0 else s) := by
  have hp := pdIndex_lt hva
  unfold unmapPage
  rw [if_neg (by rw [and_offset, haligned]; exact not_not.mpr rfl), h.read_pde hp, ok_bind]
  by_cases hpde : Present (s.entry d (pdIndex va))
  · have hshows := h.shows_pt hp hpde
    rw [if_neg (mt present_iff.mp (not_not.mpr hpde)), hshows.read_eq (ptIndex_lt va), ok_bind]
    by_cases hpte : Present (s.entry (s.entry d (pdIndex va) / 4096) (ptIndex va))
    · rw [if_neg (mt present_iff.mp (not_not.mpr hpte)), if_pos ⟨hpde, hpte⟩, hshows.write_eq (ptIndex_lt va)]
    · rw [if_pos (present_iff.mpr hpte), if_neg fun hc => hpte hc.2]
  · rw [if_pos (present_iff.mpr hpde), if_neg fun hc => hpde hc.1]

theorem setPte_eq (h : Window s d) (hva : va < wordSize) (hpde : Present (s.entry d (pdIndex va)))
    (hK : s.entry d (pdIndex va) / 4096 ≠ d) (phys : ℕ) :
    setPte phys va flags s = .ok (s.setEntry (s.entry d (pdIndex va) / 4096) (ptIndex va)
      (phys ||| (flags &&& 0xFFF) ||| 0x01)) := by
  have hp := pdIndex_lt hva
  have hq := ptIndex_lt va
  have hshows := h.shows_pt hp hpde
  generalize hKeq : s.entry d (pdIndex va) / 4096 = K at hshows hK ⊢
  unfold setPte
  rw [hshows.read_eq hq, ok_bind]
  split
  · -- the old entry is cleared first, and the window still shows the table
    rw [hshows.write_eq hq, ok_bind]
    have hagain : Shows (s.setEntry K (ptIndex va) 0) d d (getPt (pdIndex va)) K :=
      hshows.within (within_setEntry hq) hK.symm hK.symm
    change (s.setEntry K (ptIndex va) 0).write _ _ = _
    rw [hagain.write_eq hq, PagingState.setEntry_setEntry]
  · rw [ok_bind]
    exact hshows.write_eq hq

/-- `map_page` over a page table that exists. -/
theorem mapPage_present (h : Window s d) (hva : va < wordSize) (haligned : va % 4096 = 0)
    (hpde : Present (s.entry d (pdIndex va))) (hK : s.entry d (pdIndex va) / 4096 ≠ d) (f : ℕ) :
    mapPage (f * 4096) va flags s = .ok (s.setEntry (s.entry d (pdIndex va) / 4096) (ptIndex va)
      (f * 4096 ||| (flags &&& 0xFFF) ||| 0x01)) := by
  unfold mapPage
  have hguard : ¬(f * 4096 &&& 0xFFF ≠ 0 ∨ va &&& 0xFFF ≠ 0) := by
    rw [and_offset, and_offset, haligned, Nat.mul_mod_left]
    simp
  rw [if_neg hguard, h.read_pde (pdIndex_lt hva), ok_bind]
  rw [if_neg (mt present_iff.mp (not_not.mpr hpde)), h.setPte_eq hva hpde hK]

/-- The tables behind a `map_page` that has taken frame `g` for a new page table. -/
def withNewPt (s : PagingState) (d g va flags : ℕ) : PagingState :=
  (({ s with bitmap := bitmapSet s.bitmap g } : PagingState).setEntry d (pdIndex va)
    (g * 4096 ||| (pagePresent ||| pageRw ||| (flags &&& pageUser)))).clearTable g

theorem createPt_eq (h : Window s d) (hp : p < 1024) (hp' : p ≠ 1023) (hg : g < 2 ^ 20) (hd : d ≠ g) :
    createPt (g * 4096) p flags s = .ok ((s.setEntry d p
      (g * 4096 ||| (pagePresent ||| pageRw ||| (flags &&& pageUser)))).clearTable g) := by
  have hpoints := points_pde hg flags
  unfold createPt
  rw [h.shows_pd.write_eq hp, ok_bind]
  have hself := PagingState.entry_setEntry_self (s := s) (f := d) (j := p) hpoints.word
  have hwindow : Window (s.setEntry d p (g * 4096 ||| (pagePresent ||| pageRw ||| (flags &&& pageUser)))) d :=
    h.setEntry hp fun he => hp' he.2
  have hshows := hwindow.shows_pt hp (by rw [hself]; exact hpoints.present)
  rw [hself, hpoints.frame] at hshows
  exact hshows.zeroTable_eq hd hd

/-- `map_page` where a page table is missing. -/
theorem mapPage_absent (h : Window s d) (hva : va < wordSize) (haligned : va % 4096 = 0)
    (hp : pdIndex va ≠ 1023) (hpde : ¬Present (s.entry d (pdIndex va)))
    (hused : bitmapTest s.bitmap d = true) (f : ℕ) :
    (physAllocFrame s.bitmap).1 = 0 ∧ mapPage (f * 4096) va flags s = .ok s ∨
      ∃ g, NewFrame s.bitmap g ∧ (physAllocFrame s.bitmap).1 ≠ 0 ∧ mapPage (f * 4096) va flags s =
        .ok ((withNewPt s d g va flags).setEntry g (ptIndex va) (f * 4096 ||| (flags &&& 0xFFF) ||| 0x01)) := by
  have hguard : ¬(f * 4096 &&& 0xFFF ≠ 0 ∨ va &&& 0xFFF ≠ 0) := by
    rw [and_offset, and_offset, haligned, Nat.mul_mod_left]
    simp
  have hmap : mapPage (f * 4096) va flags s =
      (if (physAllocFrame s.bitmap).1 = 0 then .ok s
      else createPt (physAllocFrame s.bitmap).1 (pdIndex va) flags
        { s with bitmap := (physAllocFrame s.bitmap).2 } >>= setPte (f * 4096) va flags) := by
    unfold mapPage
    rw [if_neg hguard, h.read_pde (pdIndex_lt hva), ok_bind]
    rw [if_pos (present_iff.mpr hpde)]
  rcases allocFrame_cases s.bitmap with hnull | ⟨g, hg, hr⟩
  · rw [if_pos hnull] at hmap
    exact .inl ⟨hnull, hmap⟩
  by_cases hnull : (physAllocFrame s.bitmap).1 = 0
  · rw [if_pos hnull] at hmap
    exact .inl ⟨hnull, hmap⟩
  · right
    refine ⟨g, hg, hnull, ?_⟩
    have hlt : g < 2 ^ 20 := hg.lt.trans (by decide)
    have hdg : d ≠ g := by
      rintro rfl
      exact nomatch hused.symm.trans hg.clear
    have hwindow : Window { s with bitmap := bitmapSet s.bitmap g } d := h.congr rfl rfl
    have hpoints := points_pde hlt flags
    rw [hmap, if_neg hnull, hr, hwindow.createPt_eq (pdIndex_lt hva) hp hlt hdg, ok_bind, ← withNewPt]
    have hcleared : Within g (({ s with bitmap := bitmapSet s.bitmap g } : PagingState).setEntry d (pdIndex va)
        (g * 4096 ||| (pagePresent ||| pageRw ||| (flags &&& pageUser)))) (withNewPt s d g va flags) :=
      within_clearTable
    have hentry : (withNewPt s d g va flags).entry d (pdIndex va) =
        g * 4096 ||| (pagePresent ||| pageRw ||| (flags &&& pageUser)) := by
      rw [hcleared.entry hdg (pdIndex_lt hva)]
      exact PagingState.entry_setEntry_self hpoints.word
    have hwindow' : Window (withNewPt s d g va flags) d :=
      (hwindow.setEntry (pdIndex_lt hva) fun he => hp he.2).congr hcleared.cr3
        (hcleared.entry hdg (by decide))
    rw [hwindow'.setPte_eq hva (by rw [hentry]; exact hpoints.present)
      (by rw [hentry, hpoints.frame]; exact hdg.symm), hentry, hpoints.frame]

end Window

end HekaOS.Paging
