import HekaOS.PhysAllocator

/-!
# The searches of the frame allocator

Both searches take the first frames that are free: the search for one frame, which steps over full
words, does what the search for a run of one frame does. `phys_free_contiguous` frees the frames
of its range, which its guard keeps between the reserved region and the last frame for a base up
to the end of the region only.
-/

namespace HekaOS.PhysPageFrame
open MachineWord WordBitmap FirstFit

variable {bm : Bitmap} {base f n nFrames s : ℕ}

/-- The frames from `s` on that a request for `n` would take are free. -/
def ClearRun (bm : Bitmap) (n s : ℕ) : Prop := ∀ i, s ≤ i → i < s + n → bitmapTest bm i = false

theorem isRun_iff : IsRun (fun i => !bitmapTest bm i) n s ↔ ClearRun bm n s := by
  unfold IsRun ClearRun
  simp only [Bool.not_eq_true']

/-- The first fit: the smallest start of a run of clear bits, and the bits of that run set. -/
structure FirstFit (bm : Bitmap) (n s : ℕ) (r : ℕ × Bitmap) : Prop where
  address : r.1 = s * physFrameSize
  bound : s + n ≤ physTotalFrames
  clear : ClearRun bm n s
  first : ∀ s' < s, ¬ClearRun bm n s'
  bits : ∀ i, bitmapTest r.2 i = true ↔ bitmapTest bm i = true ∨ s ≤ i ∧ i < s + n

/-- An answer to a request for `n` frames in a row: null without a run, the first run otherwise. -/
structure ExactFirstFit (bm : Bitmap) (n : ℕ) (r : ℕ × Bitmap) : Prop where
  null : r = (0, bm) ↔ ¬∃ s, s + n ≤ physTotalFrames ∧ ClearRun bm n s
  refused : r.1 = 0 → r = (0, bm)
  granted : r.1 ≠ 0 → ∃ s, FirstFit bm n s r

theorem FirstFit.of_isFirstRun (h : IsFirstRun (fun i => !bitmapTest bm i) n physTotalFrames s) :
    FirstFit bm n s (s * physFrameSize, (List.range' s n).foldl bitmapSet bm) := by
  refine ⟨rfl, h.bound, isRun_iff.mp h.run, fun s' hs' hrun => h.first s' hs' (isRun_iff.mpr hrun), ?_⟩
  intro i
  rw [bitmapTest_foldl_set, List.mem_range'_1]

/-- Frame 0 is in use, so that no run starts there and null is no answer but a refusal. -/
theorem FirstFit.ne_null {r : ℕ × Bitmap} (h : FirstFit bm n s r) (hzero : bitmapTest bm 0 = true)
    (hn : 0 < n) : r.1 ≠ 0 := by
  have hs : s ≠ 0 := by
    rintro rfl
    have hclear := h.clear 0 (le_refl 0) (by omega)
    rw [hzero] at hclear
    cases hclear
  rw [h.address]
  have hsize : physFrameSize ≠ 0 := by decide
  exact Nat.mul_ne_zero hs hsize

theorem phys_alloc_contiguous_first_fit (bm : Bitmap) (n : ℕ) (hzero : bitmapTest bm 0 = true)
    (hn : 0 < n) : ExactFirstFit bm n (physAllocContiguous n bm) := by
  rcases physAllocContiguous_spec bm hn with ⟨s, hfirst, hr⟩ | ⟨hnone, hr⟩
  · have hfit : FirstFit bm n s (physAllocContiguous n bm) := by
      rw [hr]
      exact .of_isFirstRun hfirst
    have hne := hfit.ne_null hzero hn
    refine ⟨⟨fun hnull => ?_, fun hno => ?_⟩, fun hnull => absurd hnull hne, fun _ => ⟨s, hfit⟩⟩
    · rw [hnull] at hne
      exact absurd rfl hne
    · exact absurd ⟨s, hfit.bound, hfit.clear⟩ hno
  · refine ⟨⟨fun _ => ?_, fun _ => hr⟩, fun _ => hr, fun hne => ?_⟩
    · rintro ⟨s, hbound, hclear⟩
      exact hnone s hbound (isRun_iff.mpr hclear)
    · rw [hr] at hne
      exact absurd rfl hne

theorem bitmapTest_init_zero (old : Bitmap) : bitmapTest (physMemInit old) 0 = true :=
  ((represents_init old).bit 0 (by decide)).mpr (.inl (by decide))

/-- Three frames from the memory behind `phys_mem_init`, and no run of 16384 there. -/
theorem phys_alloc_contiguous_first_fit_init :
    ExactFirstFit (physMemInit fun _ => 0) 3 (physAllocContiguous 3 (physMemInit fun _ => 0)) ∧
      ExactFirstFit (physMemInit fun _ => 0) 16384 (physAllocContiguous 16384 (physMemInit fun _ => 0)) :=
  ⟨phys_alloc_contiguous_first_fit _ 3 (bitmapTest_init_zero _) (by decide),
    phys_alloc_contiguous_first_fit _ 16384 (bitmapTest_init_zero _) (by decide)⟩

/-- A run of one frame is a free frame. -/
theorem clearRun_one : ClearRun bm 1 s ↔ bitmapTest bm s = false := by
  constructor
  · intro h
    exact h s (le_refl s) (Nat.lt_succ_self s)
  · intro h i hlo hhi
    obtain rfl : i = s := by omega
    exact h

/-- The first free frame is the first run of one frame. -/
theorem isFirstRun_one_iff : IsFirstRun (fun i => !bitmapTest bm i) 1 physTotalFrames f ↔
    f < physTotalFrames ∧ bitmapTest bm f = false ∧ ∀ g < f, bitmapTest bm g = true := by
  constructor
  · intro h
    refine ⟨h.bound, clearRun_one.mp (isRun_iff.mp h.run), fun g hg => ?_⟩
    by_contra hclear
    exact h.first g hg (isRun_iff.mpr (clearRun_one.mpr (Bool.not_eq_true _ ▸ hclear)))
  · rintro ⟨hbound, hclear, hfirst⟩
    refine ⟨isRun_iff.mpr (clearRun_one.mpr hclear), hbound, fun g hg hrun => ?_⟩
    have hfree := clearRun_one.mp (isRun_iff.mp hrun)
    rw [hfirst g hg] at hfree
    cases hfree

/-- Two first runs are one. -/
theorem first_run_unique {free : ℕ → Bool} {bound t : ℕ} (hs : IsFirstRun free n bound s)
    (ht : IsFirstRun free n bound t) : s = t := by
  rcases Nat.lt_trichotomy s t with hlt | heq | hgt
  · exact absurd hs.run (ht.first s hlt)
  · exact heq
  · exact absurd ht.run (hs.first t hgt)

theorem phys_alloc_frame_eq_contiguous (bm : Bitmap) : physAllocFrame bm = physAllocContiguous 1 bm := by
  have hone : ∀ g, (List.range' g 1).foldl bitmapSet bm = bitmapSet bm g := fun g => rfl
  rcases physAllocFrame_spec bm with ⟨f, hf, hclear, hbefore, hr⟩ | ⟨hfull, hr⟩
  · have hfirst := isFirstRun_one_iff.mpr ⟨hf, hclear, hbefore⟩
    rcases physAllocContiguous_spec bm Nat.one_pos with ⟨s, hs, hr'⟩ | ⟨hnone, -⟩
    · rw [hr, hr', first_run_unique hs hfirst, hone]
    · exact absurd hfirst.run (hnone f hfirst.bound)
  · rcases physAllocContiguous_spec bm Nat.one_pos with ⟨s, hs, -⟩ | ⟨-, hr'⟩
    · obtain ⟨hbound, hclear, -⟩ := isFirstRun_one_iff.mp hs
      rw [hfull s hbound] at hclear
      cases hclear
    · rw [hr, hr']

/-- The frames whose bits `phys_free_contiguous` clears, in that order. -/
def freeContiguousFrames (base nFrames : ℕ) : List ℕ :=
  if nFrames = 0 ∨ base &&& (physFrameSize - 1) ≠ 0 then []
  else
    let start := base / physFrameSize
    if start < reservedFrames ∨ sub32 physTotalFrames start < nFrames then []
    else List.range' start (add32 start nFrames - start)

theorem physFreeContiguous_eq_foldl (base nFrames : ℕ) (bm : Bitmap) :
    physFreeContiguous base nFrames bm = (freeContiguousFrames base nFrames).foldl bitmapClear bm := by
  unfold physFreeContiguous freeContiguousFrames
  split
  · rfl
  · dsimp only
    split
    · rfl
    · rfl

/-- A request for frames of the region: an aligned base, and a range that is not empty and lies
between the reserved frames and the last one. -/
structure InRegion (base nFrames : ℕ) : Prop where
  aligned : base % physFrameSize = 0
  some : 0 < nFrames
  lower : reservedFrames ≤ base / physFrameSize
  upper : base / physFrameSize + nFrames ≤ physTotalFrames

/-- `phys_free_contiguous` clears managed frames only, and changes nothing for a request that is
not one for frames of the region. -/
structure RejectsOutOfRange (base nFrames : ℕ) : Prop where
  managed : ∀ f ∈ freeContiguousFrames base nFrames, reservedFrames ≤ f ∧ f < physTotalFrames
  ignored : ¬InRegion base nFrames → ∀ bm, physFreeContiguous base nFrames bm = bm

/-- The guard's difference wraps: an aligned base behind the last frame, and a range below
`2 ^ 32`. -/
def GuardWraps (base nFrames : ℕ) : Prop :=
  base % physFrameSize = 0 ∧ 0 < nFrames ∧ physTotalFrames < base / physFrameSize ∧
    base / physFrameSize + nFrames < wordSize

theorem aligned_iff (base : ℕ) : base &&& (physFrameSize - 1) ≠ 0 ↔ base % physFrameSize ≠ 0 := by
  change base &&& (2 ^ 12 - 1) ≠ 0 ↔ base % 2 ^ 12 ≠ 0
  rw [and_low]

/-- A request that passes the guard is one for frames of the region, or its range is empty or lies
behind the region. -/
theorem freeContiguousFrames_cases (base nFrames : ℕ) (hbase : base < wordSize) :
    (InRegion base nFrames ∧
        freeContiguousFrames base nFrames = List.range' (base / physFrameSize) nFrames) ∨
      (GuardWraps base nFrames ∧
        freeContiguousFrames base nFrames = List.range' (base / physFrameSize) nFrames) ∨
      (¬InRegion base nFrames ∧ ¬GuardWraps base nFrames ∧ freeContiguousFrames base nFrames = []) := by
  have hstart : base / physFrameSize < 2 ^ 20 := by
    simp only [physFrameSize, wordSize] at hbase ⊢
    omega
  unfold freeContiguousFrames
  simp only [aligned_iff]
  by_cases hreq : nFrames = 0 ∨ base % physFrameSize ≠ 0
  · refine .inr (.inr ⟨fun h => ?_, fun h => ?_, if_pos hreq⟩)
    · have hsome := h.some
      have haligned := h.aligned
      omega
    · obtain ⟨haligned, hsome, -⟩ := h
      omega
  · rw [if_neg hreq]
    generalize hs : base / physFrameSize = s at hstart ⊢
    by_cases hlow : s < reservedFrames
    · refine .inr (.inr ⟨fun h => ?_, fun h => ?_, if_pos (.inl hlow)⟩)
      · have hlower := h.lower
        omega
      · obtain ⟨-, -, hbehind, -⟩ := h
        simp only [reservedFrames, physTotalFrames, physFrameSize] at hlow hbehind hs
        omega
    · by_cases hbehind : physTotalFrames < s
      · -- the difference wraps: it is `2 ^ 32` less the distance
        have hwrap : sub32 physTotalFrames s = wordSize + physTotalFrames - s := by
          simp only [sub32, physTotalFrames, physFrameSize, wordSize] at hbehind ⊢
          omega
        have hregion : ¬InRegion base nFrames := by
          intro h
          have hupper := h.upper
          omega
        by_cases hsum : s + nFrames < wordSize
        · have hguard : ¬(s < reservedFrames ∨ sub32 physTotalFrames s < nFrames) := by
            rw [hwrap]
            omega
          refine .inr (.inl ⟨⟨by omega, by omega, by omega, by omega⟩, ?_⟩)
          rw [if_neg hguard, add32_of_lt hsum, Nat.add_sub_cancel_left]
        · refine .inr (.inr ⟨hregion, fun h => ?_, ?_⟩)
          · obtain ⟨-, -, -, hbound⟩ := h
            omega
          · split
            · rfl
            · rename_i hguard
              rw [hwrap] at hguard
              have hempty : add32 s nFrames - s = 0 := by
                simp only [add32, physTotalFrames, physFrameSize, wordSize] at hguard hsum hstart hbehind ⊢
                omega
              rw [hempty]
              rfl
      · have hdiff : sub32 physTotalFrames s = physTotalFrames - s :=
          sub32_of_le (Nat.le_of_not_lt hbehind) (by decide)
        rw [hdiff]
        by_cases hfits : s + nFrames ≤ physTotalFrames
        · have hsum : s + nFrames < wordSize := hfits.trans_lt (by decide)
          refine .inl ⟨⟨by omega, by omega, by omega, by omega⟩, ?_⟩
          rw [if_neg (by omega), add32_of_lt hsum, Nat.add_sub_cancel_left]
        · refine .inr (.inr ⟨fun h => ?_, fun h => ?_, if_pos (by omega)⟩)
          · have hupper := h.upper
            omega
          · obtain ⟨-, -, hbehind', -⟩ := h
            omega

theorem phys_free_contiguous_rejects_iff (base nFrames : ℕ) (hbase : base < wordSize) :
    RejectsOutOfRange base nFrames ↔ ¬GuardWraps base nFrames := by
  rcases freeContiguousFrames_cases base nFrames hbase with ⟨hin, heq⟩ | ⟨hwraps, heq⟩ | ⟨-, hno, hnil⟩
  · refine ⟨fun _ hwraps => ?_, fun _ => ⟨fun f hf => ?_, fun hout => absurd hin hout⟩⟩
    · obtain ⟨-, -, hbehind, -⟩ := hwraps
      have hupper := hin.upper
      omega
    · rw [heq, List.mem_range'_1] at hf
      have hlower := hin.lower
      have hupper := hin.upper
      omega
  · refine ⟨fun h => ?_, fun hno => absurd hwraps hno⟩
    obtain ⟨-, hsome, hbehind, -⟩ := hwraps
    have hmem : base / physFrameSize ∈ freeContiguousFrames base nFrames := by
      rw [heq, List.mem_range'_1]
      omega
    have hmanaged := h.managed _ hmem
    omega
  · refine ⟨fun _ => hno, fun _ => ⟨fun f hf => ?_, fun _ bm => ?_⟩⟩
    · rw [hnil] at hf
      cases hf
    · rw [physFreeContiguous_eq_foldl, hnil]
      rfl

/-- Two frames from the last one on: the range ends behind the memory, and nothing is freed. -/
theorem phys_free_contiguous_rejects_last :
    ¬InRegion 0x03FFF000 2 ∧ ∀ bm, physFreeContiguous 0x03FFF000 2 bm = bm := by
  have hout : ¬InRegion 0x03FFF000 2 := fun hin => absurd hin.upper (by decide)
  have hno : ¬GuardWraps 0x03FFF000 2 := fun hwraps => absurd hwraps.2.2.1 (by decide)
  exact ⟨hout, ((phys_free_contiguous_rejects_iff 0x03FFF000 2 (by decide)).mpr hno).ignored hout⟩

/-- The frame behind the end of memory: the difference wraps to `2 ^ 32 - 1`, and bit 16385 is
cleared, which lies in the word behind the bitmap. -/
theorem phys_free_contiguous_out_of_bounds : freeContiguousFrames 0x04001000 1 = [16385] ∧
    bitmapSize ≤ 16385 / 32 ∧ ¬RejectsOutOfRange 0x04001000 1 := by
  have hframes : freeContiguousFrames 0x04001000 1 = [16385] := by decide
  refine ⟨hframes, by decide, fun h => ?_⟩
  have hmanaged := h.managed 16385 (hframes ▸ List.mem_singleton_self _)
  exact absurd hmanaged (by decide)

end HekaOS.PhysPageFrame
