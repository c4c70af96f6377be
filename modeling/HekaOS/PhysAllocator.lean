import HekaOS.PhysPageFrame

/-!
# The frame allocator hands out sets of frames

The bitmap stands for the set of the frames handed out, next to the reserved ones. Every call is
the operation on that set that its name says, over any history of single and contiguous requests.
-/

namespace HekaOS.PhysPageFrame
open MachineWord WordBitmap FirstFit

variable {bm : Bitmap} {held : Finset ℕ} {f g i j n s : ℕ}

theorem allocFrameBit_ok (hi : i < bitmapSize) (hj : j < 32) :
    allocFrameBit bm i () j = .ok () ↔ bitmapTest bm (i * 32 + j) = true := by
  have hlt : ¬physTotalFrames ≤ i * 32 + j := by
    simp only [bitmapSize, physTotalFrames, physFrameSize] at hi ⊢
    omega
  unfold allocFrameBit
  rw [if_neg hlt]
  cases bitmapTest bm (i * 32 + j) <;> simp

theorem allocFrameBit_error {r : ℕ × Bitmap} (hi : i < bitmapSize) (hj : j < 32)
    (h : allocFrameBit bm i () j = .error r) : bitmapTest bm (i * 32 + j) = false ∧
      r = ((i * 32 + j) * physFrameSize, bitmapSet bm (i * 32 + j)) := by
  have hlt : ¬physTotalFrames ≤ i * 32 + j := by
    simp only [bitmapSize, physTotalFrames, physFrameSize] at hi ⊢
    omega
  unfold allocFrameBit at h
  rw [if_neg hlt] at h
  cases htest : bitmapTest bm (i * 32 + j) with
  | true => simp [htest] at h
  | false =>
    simp only [htest, Bool.not_false, ↓reduceIte, Except.error.injEq] at h
    exact ⟨rfl, h.symm⟩

theorem allocFrameWord_ok (hi : i < bitmapSize) (h : allocFrameWord bm () i = .ok ()) (hj : j < 32) :
    bitmapTest bm (i * 32 + j) = true := by
  unfold allocFrameWord at h
  split at h
  · rename_i hfull
    exact bitmapTest_of_full hfull hj
  · rcases foldlM_range (allocFrameBit bm i) 32 with ⟨-, hall⟩ | ⟨_, _, r, _, _, hend⟩
    · exact (allocFrameBit_ok hi hj).mp (hall j hj)
    · rw [hend] at h
      exact nomatch h

theorem allocFrameWord_error {r : ℕ × Bitmap} (hi : i < bitmapSize) (h : allocFrameWord bm () i = .error r) :
    ∃ j < 32, (∀ k < j, bitmapTest bm (i * 32 + k) = true) ∧ bitmapTest bm (i * 32 + j) = false ∧
      r = ((i * 32 + j) * physFrameSize, bitmapSet bm (i * 32 + j)) := by
  unfold allocFrameWord at h
  split at h
  · exact nomatch h
  · rcases foldlM_range (allocFrameBit bm i) 32 with ⟨hend, -⟩ | ⟨j, hj, r', hbefore, hret, hend⟩
    · rw [hend] at h
      exact nomatch h
    · rw [hend] at h
      obtain rfl := Except.error.inj h
      obtain ⟨hclear, hr⟩ := allocFrameBit_error hi hj hret
      exact ⟨j, hj, fun k hk => (allocFrameBit_ok hi (hk.trans hj)).mp (hbefore k hk), hclear, hr⟩

/-- `phys_alloc_frame` takes the first frame that is free. -/
theorem physAllocFrame_spec (bm : Bitmap) :
    (∃ f < physTotalFrames, bitmapTest bm f = false ∧ (∀ g < f, bitmapTest bm g = true) ∧
        physAllocFrame bm = (f * physFrameSize, bitmapSet bm f)) ∨
      (∀ f < physTotalFrames, bitmapTest bm f = true) ∧ physAllocFrame bm = (0, bm) := by
  have hword : ∀ f < physTotalFrames, f / 32 < bitmapSize := by
    intro f hf
    simp only [bitmapSize, physTotalFrames, physFrameSize] at hf ⊢
    omega
  have hsplit : ∀ f : ℕ, f / 32 * 32 + f % 32 = f := fun f => by omega
  unfold physAllocFrame
  rcases foldlM_range (allocFrameWord bm) bitmapSize with ⟨hend, hall⟩ | ⟨i, hi, r, hbefore, hret, hend⟩
  · rw [hend]
    refine .inr ⟨fun f hf => ?_, rfl⟩
    rw [← hsplit f]
    exact allocFrameWord_ok (hword f hf) (hall _ (hword f hf)) (bit_lt f)
  · rw [hend]
    obtain ⟨j, hj, hbits, hclear, rfl⟩ := allocFrameWord_error hi hret
    refine .inl ⟨i * 32 + j, ?_, hclear, fun g hg => ?_, rfl⟩
    · simp only [bitmapSize, physTotalFrames, physFrameSize] at hi ⊢
      omega
    · rw [← hsplit g]
      by_cases hg' : g / 32 < i
      · exact allocFrameWord_ok (hg'.trans hi) (hbefore _ hg') (bit_lt g)
      · obtain rfl : g / 32 = i := by omega
        exact hbits _ (by omega)

/-- `phys_alloc_contiguous` takes the first run that is long enough. -/
theorem physAllocContiguous_spec (bm : Bitmap) (hn : 0 < n) :
    (∃ s, IsFirstRun (fun i => !bitmapTest bm i) n physTotalFrames s ∧
        physAllocContiguous n bm = (s * physFrameSize, (List.range' s n).foldl bitmapSet bm)) ∨
      (∀ s, s + n ≤ physTotalFrames → ¬IsRun (fun i => !bitmapTest bm i) n s) ∧
        physAllocContiguous n bm = (0, bm) := by
  unfold physAllocContiguous
  rw [if_neg hn.ne']
  rcases scan_spec hn physTotalFrames with ⟨s, hend, hfirst⟩ | ⟨st, hend, hnone⟩
  · rw [hend]
    exact .inl ⟨s, hfirst, rfl⟩
  · rw [hend]
    exact .inr ⟨hnone, rfl⟩

theorem mul_frame_aligned (f : ℕ) : f * physFrameSize &&& (physFrameSize - 1) = 0 := by
  change f * 2 ^ 12 &&& (2 ^ 12 - 1) = 0
  rw [and_low, Nat.mul_mod_left]

theorem mul_frame_div (f : ℕ) : f * physFrameSize / physFrameSize = f := Nat.mul_div_cancel f (by decide)

theorem physFreeFrame_eq (h₁ : reservedFrames ≤ f) (h₂ : f < physTotalFrames) :
    physFreeFrame (f * physFrameSize) bm = bitmapClear bm f := by
  unfold physFreeFrame
  rw [mul_frame_div, if_neg fun h => h (mul_frame_aligned f), if_neg]
  omega

theorem physFreeContiguous_eq (hn : 0 < n) (h₁ : reservedFrames ≤ s) (h₂ : s + n ≤ physTotalFrames) :
    physFreeContiguous (s * physFrameSize) n bm = (List.range' s n).foldl bitmapClear bm := by
  have htotal : physTotalFrames < wordSize := by decide
  have hsub : sub32 physTotalFrames s = physTotalFrames - s := sub32_of_le (by omega) htotal
  have hadd : add32 s n = s + n := add32_of_lt (by omega)
  dsimp only [physFreeContiguous]
  rw [mul_frame_div, hsub, hadd, if_neg, if_neg, Nat.add_sub_cancel_left]
  · omega
  · rw [not_or]
    exact ⟨hn.ne', fun h => h (mul_frame_aligned s)⟩

/-- The bitmap stands for a set of managed frames. -/
structure Represents (bm : Bitmap) (held : Finset ℕ) : Prop where
  managed : ∀ f ∈ held, reservedFrames ≤ f ∧ f < physTotalFrames
  bit : ∀ f < physTotalFrames, bitmapTest bm f = true ↔ f < reservedFrames ∨ f ∈ held

theorem represents_init (old : Bitmap) : Represents (physMemInit old) ∅ := by
  refine ⟨nofun, fun f hf => ?_⟩
  have hset : bitmapTest (fun i => if i < bitmapSize then BitVec.allOnes 32 else old i) f = true := by
    have hword : f / 32 < bitmapSize := by
      simp only [bitmapSize, physTotalFrames, physFrameSize] at hf ⊢
      omega
    dsimp only [bitmapTest]
    rw [if_pos hword, BitVec.getLsbD_allOnes]
    exact decide_eq_true (bit_lt f)
  unfold physMemInit
  rw [bitmapTest_foldl_clear, List.mem_range'_1]
  simp only [hset, true_and, Finset.notMem_empty, or_false]
  simp only [reservedFrames, physTotalFrames, physFrameSize] at hf ⊢
  omega

namespace Represents

variable (h : Represents bm held)
include h

/-- A frame whose bit is clear is managed and not handed out. -/
theorem of_clear (hf : f < physTotalFrames) (hclear : bitmapTest bm f = false) :
    reservedFrames ≤ f ∧ f ∉ held := by
  have hbit := mt (h.bit f hf).mpr (by rw [hclear]; exact Bool.false_ne_true)
  rw [not_or, Nat.not_lt] at hbit
  exact hbit

theorem set (hs : reservedFrames ≤ s) (hn : s + n ≤ physTotalFrames) :
    Represents ((List.range' s n).foldl bitmapSet bm) (held ∪ Finset.Ico s (s + n)) := by
  refine ⟨fun f hf => ?_, fun f hf => ?_⟩
  · rcases Finset.mem_union.mp hf with hf | hf
    · exact h.managed f hf
    · have hrange := Finset.mem_Ico.mp hf
      omega
  · rw [bitmapTest_foldl_set, h.bit f hf, List.mem_range'_1, Finset.mem_union, Finset.mem_Ico, or_assoc]

theorem clear (hrun : ∀ f ∈ Finset.Ico s (s + n), f ∈ held) :
    Represents ((List.range' s n).foldl bitmapClear bm) (held \ Finset.Ico s (s + n)) := by
  refine ⟨fun f hf => h.managed f (Finset.mem_sdiff.mp hf).1, fun f hf => ?_⟩
  rw [bitmapTest_foldl_clear, h.bit f hf, List.mem_range'_1, Finset.mem_sdiff, Finset.mem_Ico]
  constructor
  · rintro ⟨hlow | hheld, hout⟩
    · exact .inl hlow
    · exact .inr ⟨hheld, hout⟩
  · rintro (hlow | ⟨hheld, hout⟩)
    · refine ⟨.inl hlow, fun hin => ?_⟩
      have hmanaged := h.managed f (hrun f (Finset.mem_Ico.mpr hin))
      omega
    · exact ⟨.inr hheld, hout⟩

end Represents

/-- The frames of a run of `n` at an address that an allocation has returned. -/
def framesAt (addr n : ℕ) : Finset ℕ :=
  if addr = 0 then ∅ else Finset.Ico (addr / physFrameSize) (addr / physFrameSize + n)

theorem framesAt_mul (hs : reservedFrames ≤ s) : framesAt (s * physFrameSize) n = Finset.Ico s (s + n) := by
  have hne : s * physFrameSize ≠ 0 := by
    simp only [reservedFrames, physFrameSize] at hs ⊢
    omega
  rw [framesAt, if_neg hne, mul_frame_div]

/-- What an allocation of `n` frames returns and leaves: null and nothing new, or the address of
managed frames that were not handed out. -/
structure Grants (held : Finset ℕ) (n : ℕ) (r : ℕ × Bitmap) : Prop where
  aligned : r.1 % physFrameSize = 0
  fresh : ∀ f ∈ framesAt r.1 n, reservedFrames ≤ f ∧ f < physTotalFrames ∧ f ∉ held
  represents : Represents r.2 (held ∪ framesAt r.1 n)

theorem Represents.refuse (h : Represents bm held) : Grants held n (0, bm) := by
  have hnone : framesAt 0 n = ∅ := if_pos rfl
  refine ⟨rfl, ?_, ?_⟩
  · rw [hnone]
    nofun
  · rw [hnone, Finset.union_empty]
    exact h

theorem Represents.grant (h : Represents bm held) (hn : 0 < n) (hrun : IsRun (fun i => !bitmapTest bm i) n s)
    (hbound : s + n ≤ physTotalFrames) :
    Grants held n (s * physFrameSize, (List.range' s n).foldl bitmapSet bm) := by
  have hfree : ∀ f ∈ Finset.Ico s (s + n), reservedFrames ≤ f ∧ f ∉ held := by
    intro f hf
    obtain ⟨hlo, hhi⟩ := Finset.mem_Ico.mp hf
    exact h.of_clear (by omega) (by simpa using hrun f hlo hhi)
  have hs : reservedFrames ≤ s := (hfree s (Finset.mem_Ico.mpr ⟨le_refl s, by omega⟩)).1
  refine ⟨Nat.mul_mod_left s _, ?_, ?_⟩
  · rw [framesAt_mul hs]
    intro f hf
    have hhi := (Finset.mem_Ico.mp hf).2
    exact ⟨(hfree f hf).1, by omega, (hfree f hf).2⟩
  · rw [framesAt_mul hs]
    exact h.set hs hbound

theorem Represents.allocFrame (h : Represents bm held) : Grants held 1 (physAllocFrame bm) := by
  rcases physAllocFrame_spec bm with ⟨f, hf, hclear, -, hr⟩ | ⟨-, hr⟩
  · rw [hr]
    refine h.grant (by decide) (fun i hi hi' => ?_) hf
    obtain rfl : i = f := by omega
    simpa using hclear
  · rw [hr]
    exact h.refuse

theorem Represents.allocContiguous (h : Represents bm held) (n : ℕ) :
    Grants held n (physAllocContiguous n bm) := by
  rcases Nat.eq_zero_or_pos n with rfl | hn
  · exact h.refuse
  · rcases physAllocContiguous_spec bm hn with ⟨s, hfirst, hr⟩ | ⟨-, hr⟩
    · rw [hr]
      exact h.grant hn hfirst.run hfirst.bound
    · rw [hr]
      exact h.refuse

theorem Represents.freeFrame (h : Represents bm held) (hf : f ∈ held) :
    Represents (physFreeFrame (f * physFrameSize) bm) (held.erase f) := by
  obtain ⟨hlo, hhi⟩ := h.managed f hf
  have hone : Finset.Ico f (f + 1) = {f} := Nat.Ico_succ_singleton f
  have hclear := h.clear (s := f) (n := 1) fun g hg => by
    rw [hone, Finset.mem_singleton] at hg
    exact hg ▸ hf
  rw [hone, ← Finset.erase_eq] at hclear
  rw [physFreeFrame_eq hlo hhi]
  exact hclear

theorem Represents.freeContiguous (h : Represents bm held) (hrun : ∀ f ∈ Finset.Ico s (s + n), f ∈ held) :
    Represents (physFreeContiguous (s * physFrameSize) n bm) (held \ Finset.Ico s (s + n)) := by
  rcases Nat.eq_zero_or_pos n with rfl | hn
  · have hnone : physFreeContiguous (s * physFrameSize) 0 bm = bm := if_pos (.inl rfl)
    rw [hnone, add_zero, Finset.Ico_self, Finset.sdiff_empty]
    exact h
  · have hlo := h.managed s (hrun s (Finset.mem_Ico.mpr ⟨le_refl s, by omega⟩))
    have hhi := h.managed (s + n - 1) (hrun _ (Finset.mem_Ico.mpr ⟨by omega, by omega⟩))
    rw [physFreeContiguous_eq hn hlo.1 (by omega)]
    exact h.clear hrun

theorem Represents.freeCount (h : Represents bm held) :
    physFreeCount bm = (physTotalFrames - reservedFrames) - held.card := by
  have hset : ((Finset.range physTotalFrames).filter fun i => (!bitmapTest bm i) = true) =
      Finset.Ico reservedFrames physTotalFrames \ held := by
    ext f
    rw [Finset.mem_filter, Finset.mem_range, Finset.mem_sdiff, Finset.mem_Ico, Bool.not_eq_true',
      ← Bool.not_eq_true]
    constructor
    · rintro ⟨hf, hclear⟩
      have hfree := h.of_clear hf (Bool.not_eq_true _ ▸ hclear)
      exact ⟨⟨hfree.1, hf⟩, hfree.2⟩
    · rintro ⟨⟨hlo, hhi⟩, hout⟩
      refine ⟨hhi, fun hset => ?_⟩
      rcases (h.bit f hhi).mp hset with hlow | hheld
      · omega
      · exact hout hheld
  have hsub : held ⊆ Finset.Ico reservedFrames physTotalFrames :=
    fun f hf => Finset.mem_Ico.mpr (h.managed f hf)
  rw [physFreeCount, countP_range, hset, Finset.card_sdiff_of_subset hsub, Nat.card_Ico]

theorem Represents.allocFrame_null (h : Represents bm held) :
    (physAllocFrame bm).1 = 0 ↔ held = Finset.Ico reservedFrames physTotalFrames := by
  rcases physAllocFrame_spec bm with ⟨f, hf, hclear, -, hr⟩ | ⟨hfull, hr⟩
  · obtain ⟨hlo, hout⟩ := h.of_clear hf hclear
    rw [hr]
    constructor
    · intro hnull
      simp only [reservedFrames, physFrameSize] at hlo hnull
      omega
    · intro hall
      exact absurd (hall ▸ Finset.mem_Ico.mpr ⟨hlo, hf⟩) hout
  · rw [hr]
    refine ⟨fun _ => ?_, fun _ => rfl⟩
    ext f
    rw [Finset.mem_Ico]
    constructor
    · exact h.managed f
    · rintro ⟨hlo, hhi⟩
      rcases (h.bit f hhi).mp (hfull f hhi) with hlow | hheld
      · omega
      · exact hheld

/-- Histories of calls with the set of the frames handed out: what an allocation returned is
added, what is freed was handed out and is taken away. -/
inductive PmmRun : Bitmap → Finset ℕ → Prop where
  | init (old : Bitmap) : PmmRun (physMemInit old) ∅
  | allocFrame {bm : Bitmap} {held : Finset ℕ} (h : PmmRun bm held) :
      PmmRun (physAllocFrame bm).2 (held ∪ framesAt (physAllocFrame bm).1 1)
  | allocContiguous {bm : Bitmap} {held : Finset ℕ} (n : ℕ) (h : PmmRun bm held) :
      PmmRun (physAllocContiguous n bm).2 (held ∪ framesAt (physAllocContiguous n bm).1 n)
  | freeFrame {bm : Bitmap} {held : Finset ℕ} {f : ℕ} (h : PmmRun bm held) (hf : f ∈ held) :
      PmmRun (physFreeFrame (f * physFrameSize) bm) (held.erase f)
  | freeContiguous {bm : Bitmap} {held : Finset ℕ} {s n : ℕ} (h : PmmRun bm held)
      (hrun : ∀ f ∈ Finset.Ico s (s + n), f ∈ held) :
      PmmRun (physFreeContiguous (s * physFrameSize) n bm) (held \ Finset.Ico s (s + n))

theorem PmmRun.represents (h : PmmRun bm held) : Represents bm held := by
  induction h with
  | init old => exact represents_init old
  | allocFrame _ ih => exact ih.allocFrame.represents
  | allocContiguous n _ ih => exact (ih.allocContiguous n).represents
  | freeFrame _ hf ih => exact ih.freeFrame hf
  | freeContiguous _ hrun ih => exact ih.freeContiguous hrun

/-- After every history the bitmap is the set of the frames handed out, and the next call acts on
that set. -/
structure Refines (bm : Bitmap) (held : Finset ℕ) : Prop where
  represents : Represents bm held
  allocFrame : Grants held 1 (physAllocFrame bm)
  allocContiguous : ∀ n, Grants held n (physAllocContiguous n bm)
  freeFrame : ∀ f ∈ held, Represents (physFreeFrame (f * physFrameSize) bm) (held.erase f)
  freeContiguous : ∀ s n, (∀ f ∈ Finset.Ico s (s + n), f ∈ held) →
    Represents (physFreeContiguous (s * physFrameSize) n bm) (held \ Finset.Ico s (s + n))
  freeCount : physFreeCount bm = 15360 - held.card
  exhausted : (physAllocFrame bm).1 = 0 ↔ held = Finset.Ico 1024 16384

theorem physical_allocator_refinement (bm : Bitmap) (held : Finset ℕ) (h : PmmRun bm held) :
    Refines bm held := by
  have hr := h.represents
  refine ⟨hr, hr.allocFrame, hr.allocContiguous, fun f hf => hr.freeFrame hf,
    fun s n hrun => hr.freeContiguous hrun, ?_, ?_⟩
  · have hframes : physTotalFrames - reservedFrames = 15360 := rfl
    rw [← hframes]
    exact hr.freeCount
  · exact hr.allocFrame_null

theorem physAllocFrame_init (old : Bitmap) : (physAllocFrame (physMemInit old)).1 ≠ 0 := by
  intro hnull
  have hfull := (represents_init old).allocFrame_null.mp hnull
  have hmem : reservedFrames ∈ Finset.Ico reservedFrames physTotalFrames :=
    Finset.mem_Ico.mpr ⟨le_refl _, by decide⟩
  rw [← hfull] at hmem
  exact absurd hmem (Finset.notMem_empty _)

/-- The first frame after `phys_mem_init` is granted and can be given back. -/
theorem physical_allocator_refinement_first :
    let r := physAllocFrame (physMemInit fun _ => 0)
    r.1 ≠ 0 ∧ Refines r.2 (∅ ∪ framesAt r.1 1) := by
  have hinit : PmmRun (physMemInit fun _ => 0) ∅ := .init _
  exact ⟨physAllocFrame_init _, physical_allocator_refinement _ _ hinit.allocFrame⟩

end HekaOS.PhysPageFrame
