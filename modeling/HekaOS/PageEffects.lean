import HekaOS.ForkCopy
import HekaOS.FrameExclusivity

/-!
# What one page costs

`alloc_page` and `free_page` where the page table is there already: one entry of it and one bit of the
bitmap change. Frames that are given back leave the loan that `Touched` keeps account of.
-/

namespace HekaOS.Paging
open MachineWord KernelMemory KernelTriples ByteMemory PageWalk WordBitmap PhysPageFrame AddressMap
open Tasks (maxProc pageSize)

variable {s t u : PagingState} {W : Set ℕ} {T : Finset ℕ} {d f g i j K p q v va flags : ℕ}

theorem bitmapTest_free (bm : Bitmap) (hlow : reservedFrames ≤ g) (hlt : g < physTotalFrames) (x : ℕ) :
    bitmapTest (physFreeFrame (g * 4096) bm) x = (bitmapTest bm x && !decide (x = g)) := by
  have heq : physFreeFrame (g * 4096) bm = bitmapClear bm g := physFreeFrame_eq hlow hlt
  rw [heq, bitmapTest_clear]

/-- The directory in frame `d` is current, and has a page table in frame `K` at index `p`. -/
structure Tabled (d K p : ℕ) (s : PagingState) : Prop where
  window : Window s d
  present : Present (s.entry d p)
  table : s.entry d p / 4096 = K
  apart : K ≠ d

/-- Frame `g` was free and is the page behind entry `q` of the table in frame `K` now. -/
structure PageIn (K q g : ℕ) (s t : PagingState) : Prop where
  new : NewFrame s.bitmap g
  low : reservedFrames ≤ g
  cr3 : t.cr3 = s.cr3
  bitmap : ∀ x, bitmapTest t.bitmap x = (bitmapTest s.bitmap x || decide (x = g))
  mem : ∀ a, a / 4096 ≠ K → t.mem a = s.mem a
  entry : Points (t.entry K q) g
  others : ∀ j < 1024, j ≠ q → t.entry K j = s.entry K j

/-- Frame `g` was the page behind the entry and is free now. -/
structure PageOut (K q g : ℕ) (s t : PagingState) : Prop where
  cr3 : t.cr3 = s.cr3
  bitmap : ∀ x, bitmapTest t.bitmap x = (bitmapTest s.bitmap x && !decide (x = g))
  mem : ∀ a, a / 4096 ≠ K → t.mem a = s.mem a
  entry : t.entry K q = 0
  others : ∀ j < 1024, j ≠ q → t.entry K j = s.entry K j

theorem entry_congr (hmem : ∀ a, a / 4096 ≠ K → t.mem a = s.mem a) (hf : f ≠ K) (hj : j < 1024) :
    t.entry f j = s.entry f j := PagingState.entry_of_mem (fun a ha => hmem a (ha ▸ hf)) hj

namespace Tabled

theorem congr (h : Tabled d K p s) (hcr3 : t.cr3 = s.cr3) (hp : p < 1024)
    (hentry : ∀ i < 1024, t.entry d i = s.entry d i) : Tabled d K p t := by
  refine ⟨h.window.congr hcr3 (hentry 1023 (by decide)), ?_, ?_, h.apart⟩
  · rw [hentry p hp]
    exact h.present
  · rw [hentry p hp]
    exact h.table

/-- `alloc_page` takes a frame for the page alone. -/
theorem allocPage (h : Tabled d K p s) (hva : Paged va) (hp : pdIndex va = p) (hlow : ∀ f < reservedFrames, InUse s f)
    (flags : ℕ) : Full s ∧ Paging.allocPage va flags s = .ok (0, s) ∨
      ∃ g t, Paging.allocPage va flags s = .ok (va, t) ∧ PageIn K (ptIndex va) g s t := by
  subst hp
  unfold Paging.allocPage
  dsimp only
  rcases allocFrame_split hlow with ⟨hfull, hr⟩ | ⟨g, hg, hglow, hr⟩
  · left
    rw [hr, if_pos rfl]
    exact ⟨hfull, rfl⟩
  · right
    obtain ⟨s₁, hs₁⟩ : ∃ s₁, ({ s with bitmap := bitmapSet s.bitmap g } : PagingState) = s₁ := ⟨_, rfl⟩
    have hentry : ∀ f i, s₁.entry f i = s.entry f i := by
      intro f i
      rw [← hs₁]
      rfl
    have hbitmap : s₁.bitmap = bitmapSet s.bitmap g := by rw [← hs₁]
    have h₁ : Tabled d K (pdIndex va) s₁ := by
      refine h.congr ?_ (pdIndex_lt hva.word) fun i _ => hentry d i
      rw [← hs₁]
    have hmem : s₁.mem = s.mem := by rw [← hs₁]
    have hcr3 : s₁.cr3 = s.cr3 := by rw [← hs₁]
    have hpoints := points_pte (hg.lt.trans (by decide) : g < 2 ^ 20) flags
    have hmap : mapPage (g * 4096) va flags s₁ = _ := h₁.window.mapPage_present hva.word hva.aligned h₁.present
      (by rw [h₁.table]; exact h₁.apart) g
    rw [h₁.table] at hmap
    rw [hr, if_neg (frame_ne_zero hglow)]
    dsimp only
    rw [hs₁, hmap, ok_bind]
    obtain ⟨t, ht⟩ : ∃ t, s₁.setEntry K (ptIndex va) (g * 4096 ||| (flags &&& 0xFFF) ||| 0x01) = t := ⟨_, rfl⟩
    have hwithin : Within K s₁ t := ht ▸ within_setEntry (ptIndex_lt va)
    have hself : t.entry K (ptIndex va) = g * 4096 ||| (flags &&& 0xFFF) ||| 0x01 := by
      rw [← ht]
      exact PagingState.entry_setEntry_self hpoints.word
    rw [← hself] at hpoints
    have h₂ : Tabled d K (pdIndex va) t :=
      h₁.congr hwithin.cr3 (pdIndex_lt hva.word) fun i hi => hwithin.entry h.apart.symm hi
    have hphys : getPhysaddr va t = .ok (g * 4096) := by
      rw [h₂.window.getPhysaddr_eq hva.word, h₂.table, if_pos ⟨h₂.present, hpoints.present⟩, hpoints.frame,
        add32_frame hg.lt hva.aligned]
    rw [ht, hphys, ok_bind, if_neg (frame_ne_zero hglow)]
    refine ⟨g, t, rfl, hg, hglow, hwithin.cr3.trans hcr3, fun x => ?_, fun a ha => ?_, hpoints, fun j hj hne => ?_⟩
    · rw [hwithin.bitmap, hbitmap]
      exact bitmapTest_set
    · rw [hwithin.mem a ha, hmem]
    · rw [← ht, PagingState.entry_setEntry_of_ne (ptIndex_lt va) hj fun he => hne he.2]
      exact hentry K j

/-- `free_page` gives the frame back. -/
theorem freePage (h : Tabled d K p s) (hva : Paged va) (hp : pdIndex va = p)
    (hpoints : Points (s.entry K (ptIndex va)) g) (hlow : reservedFrames ≤ g) (hlt : g < physTotalFrames) :
    ∃ t, Paging.freePage va s = .ok t ∧ PageOut K (ptIndex va) g s t := by
  subst hp
  have hphys : getPhysaddr va s = .ok (g * 4096) := by
    rw [h.window.getPhysaddr_eq hva.word, h.table, if_pos ⟨h.present, hpoints.present⟩, hpoints.frame,
      add32_frame hlt hva.aligned]
  have hunmap := h.window.unmapPage_eq hva.word hva.aligned
  rw [h.table, if_pos ⟨h.present, hpoints.present⟩] at hunmap
  have hwithin : Within K s (s.setEntry K (ptIndex va) 0) := within_setEntry (ptIndex_lt va)
  unfold Paging.freePage
  rw [hphys, ok_bind, if_neg (frame_ne_zero hlow), hunmap, ok_bind]
  refine ⟨_, rfl, rfl, fun x => bitmapTest_free _ hlow hlt x, fun a ha => hwithin.mem a ha, ?_, fun j hj hne => ?_⟩
  · exact PagingState.entry_setEntry_self (s := s) (by decide)
  · exact PagingState.entry_setEntry_of_ne (s := s) (ptIndex_lt va) hj fun he => hne he.2

end Tabled

namespace Touched

theorem pageIn (h : Touched W T s t) (hu : PageIn K q g t u) (hK : K ∈ W) : Touched W (insert g T) s u := by
  refine ⟨hu.cr3.trans h.cr3, fun f => ?_, fun f hf => ?_, fun a ha hout => ?_⟩
  · rw [hu.bitmap, h.bitmap, Bool.or_assoc, ← Bool.decide_or]
    congr 1
    simp only [Finset.mem_insert, or_comm]
  · rcases Finset.mem_insert.mp hf with rfl | hf
    · exact (h.newFrame hu.new).1
    · exact h.fresh f hf
  · rw [hu.mem a fun he => hout (he ▸ hK), h.kept a ha hout]

/-- A frame that was taken goes back. -/
theorem release (h : Touched W T s t) (hg : g ∈ T) (hcr3 : u.cr3 = t.cr3)
    (hbitmap : ∀ x, bitmapTest u.bitmap x = (bitmapTest t.bitmap x && !decide (x = g)))
    (hmem : ∀ a, a / 4096 ∉ W → u.mem a = t.mem a) : Touched W (T.erase g) s u := by
  refine ⟨hcr3.trans h.cr3, fun f => ?_, fun f hf => h.fresh f (Finset.mem_of_mem_erase hf), fun a ha hout => ?_⟩
  · rw [hbitmap, h.bitmap]
    by_cases hf : f = g
    · subst hf
      rw [(h.fresh f hg).clear]
      simp
    · simp [hf]
  · rw [hmem a hout, h.kept a ha hout]

theorem pageOut (h : Touched W T s t) (hu : PageOut K q g t u) (hK : K ∈ W) (hg : g ∈ T) :
    Touched W (T.erase g) s u :=
  h.release hg hu.cr3 hu.bitmap fun a hout => hu.mem a fun he => hout (he ▸ hK)

end Touched

end HekaOS.Paging
