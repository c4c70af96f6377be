import HekaOS.ProcessSpaces

/-!
# What a call may touch

The calls on another process store to a few frames they name and to frames they have taken from
the allocator, and to nothing else. `Touched` keeps account of both, so that everything that was
in use before the call is known to be as it was. `Bench` is what the calls need to find: the recursive
window and the page table with the entries of the scratch pages.
-/

namespace HekaOS.Paging
open MachineWord KernelMemory KernelTriples ByteMemory PageWalk WordBitmap PhysPageFrame AddressMap
open Tasks (maxProc pageSize)

variable {s t u : PagingState} {W W' : Set ℕ} {T T' : Finset ℕ} {d f g j K p P v va : ℕ}

/-- The frame is marked in the bitmap. -/
def InUse (s : PagingState) (f : ℕ) : Prop := bitmapTest s.bitmap f = true

/-- `t` is `s` after stores to the frames `W` and to the frames `T`, which were free and are taken. -/
structure Touched (W : Set ℕ) (T : Finset ℕ) (s t : PagingState) : Prop where
  cr3 : t.cr3 = s.cr3
  bitmap : ∀ f, bitmapTest t.bitmap f = (bitmapTest s.bitmap f || decide (f ∈ T))
  fresh : ∀ f ∈ T, NewFrame s.bitmap f
  kept : ∀ a, InUse s (a / 4096) → a / 4096 ∉ W → t.mem a = s.mem a

namespace Touched

theorem refl (W : Set ℕ) (s : PagingState) : Touched W ∅ s s :=
  ⟨rfl, by simp, by simp, fun _ _ _ => rfl⟩

theorem inUse (h : Touched W T s t) (hf : InUse s f) : InUse t f := by
  unfold InUse at *
  rw [h.bitmap, hf]
  rfl

theorem inUse_of_mem (h : Touched W T s t) (hf : f ∈ T) : InUse t f := by
  unfold InUse
  rw [h.bitmap, decide_eq_true hf, Bool.or_true]

theorem not_mem (h : Touched W T s t) (hf : InUse s f) : f ∉ T := by
  intro hT
  have hclear := (h.fresh f hT).clear
  rw [hf] at hclear
  cases hclear

/-- A frame that is free afterwards was free before, and is none of those taken. -/
theorem newFrame (h : Touched W T s t) (hg : NewFrame t.bitmap g) : NewFrame s.bitmap g ∧ g ∉ T := by
  have hclear := hg.clear
  rw [h.bitmap, Bool.or_eq_false_iff, decide_eq_false_iff_not] at hclear
  exact ⟨⟨hg.lt, hclear.1⟩, hclear.2⟩

theorem disjoint (h : Touched W T s t) (h' : Touched W' T' t u) : Disjoint T T' := by
  rw [Finset.disjoint_left]
  intro f hf hf'
  exact (h.newFrame (h'.fresh f hf')).2 hf

/-- One call after the other; the second may also store to what the first has taken. -/
theorem trans (h : Touched W T s t) (h' : Touched W' T' t u) (hW : ∀ f ∈ W', f ∈ W ∨ f ∈ T) :
    Touched W (T ∪ T') s u := by
  refine ⟨h'.cr3.trans h.cr3, fun f => ?_, fun f hf => ?_, fun a ha hout => ?_⟩
  · rw [h'.bitmap, h.bitmap, Bool.or_assoc, ← Bool.decide_or]
    congr 1
    simp only [Finset.mem_union]
  · rcases Finset.mem_union.mp hf with hf | hf
    · exact h.fresh f hf
    · exact (h.newFrame (h'.fresh f hf)).1
  · have hout' : a / 4096 ∉ W' := by
      intro hmem
      rcases hW _ hmem with hw | hT
      · exact hout hw
      · exact h.not_mem ha hT
    rw [h'.kept a (h.inUse ha) hout', h.kept a ha hout]

theorem and_then (h : Touched W T s t) (h' : Touched W' ∅ t u) (hW : ∀ f ∈ W', f ∈ W ∨ f ∈ T) : Touched W T s u := by
  have hboth := h.trans h' hW
  rw [Finset.union_empty] at hboth
  exact hboth

theorem entry (h : Touched W T s t) (hf : InUse s f) (hout : f ∉ W) (hj : j < 1024) : t.entry f j = s.entry f j :=
  PagingState.entry_of_mem (fun a ha => h.kept a (ha ▸ hf) (ha ▸ hout)) hj

theorem of_within (h : Within g s t) : Touched {g} ∅ s t := by
  refine ⟨h.cr3, fun f => ?_, by simp, fun a _ hout => h.mem a hout⟩
  rw [h.bitmap]
  simp

theorem take (hg : NewFrame s.bitmap g) : Touched ∅ {g} s { s with bitmap := bitmapSet s.bitmap g } := by
  refine ⟨rfl, fun f => ?_, fun f hf => ?_, fun _ _ _ => rfl⟩
  · simp only [Finset.mem_singleton]
    exact bitmapTest_set
  · rw [Finset.mem_singleton.mp hf]
    exact hg

end Touched

/-- The current directory, in frame `d`, is open to the kernel and has the page table of the kernel
stacks in frame `K`. -/
structure Bench (d K : ℕ) (s : PagingState) : Prop where
  window : Window s d
  present : Present (s.entry d kstackPdeIndex)
  table : s.entry d kstackPdeIndex / 4096 = K
  apart : K ≠ d

namespace Bench

theorem congr (h : Bench d K s) (hcr3 : t.cr3 = s.cr3) (hentry : ∀ i < 1024, t.entry d i = s.entry d i) :
    Bench d K t := by
  have hkstack := hentry kstackPdeIndex (by decide)
  refine ⟨h.window.congr hcr3 (hentry 1023 (by decide)), ?_, ?_, h.apart⟩
  · rw [hkstack]
    exact h.present
  · rw [hkstack]
    exact h.table

theorem touched (h : Bench d K s) (ht : Touched W T s t) (hd : InUse s d) (hout : d ∉ W) : Bench d K t :=
  h.congr ht.cr3 fun _ hi => ht.entry hd hout hi

/-- A frame is mounted on a scratch page. -/
theorem mount_eq (h : Bench d K s) (hva : ScratchVa va) (f flags : ℕ) :
    mapPage (f * 4096) va flags s =
      .ok (s.setEntry K (ptIndex va) (f * 4096 ||| (flags &&& 0xFFF) ||| 0x01)) := by
  have hindex := Working.scratch_pdIndex hva
  have hpresent : Present (s.entry d (pdIndex va)) := by
    rw [hindex]
    exact h.present
  have htable : s.entry d (pdIndex va) / 4096 = K := by
    rw [hindex]
    exact h.table
  rw [h.window.mapPage_present (Working.scratch_word hva) (Working.scratch_aligned hva) hpresent
    (by rw [htable]; exact h.apart), htable]

theorem unmount_eq (h : Bench d K s) (hva : ScratchVa va) :
    unmapPage va s = .ok (if Present (s.entry K (ptIndex va)) then s.setEntry K (ptIndex va) 0 else s) := by
  rw [h.window.unmapPage_eq (Working.scratch_word hva) (Working.scratch_aligned hva),
    Working.scratch_pdIndex hva, h.table]
  simp only [h.present, true_and]

/-- The page shows the frame that was mounted on it. -/
theorem shows_mounted (h : Bench d K s) (hva : ScratchVa va) (hf : f < 2 ^ 20) (flags : ℕ) :
    Shows (s.setEntry K (ptIndex va) (f * 4096 ||| (flags &&& 0xFFF) ||| 0x01)) d K va f := by
  have hpoints := points_pte hf flags
  have hself := PagingState.entry_setEntry_self (s := s) (f := K) (j := ptIndex va) hpoints.word
  have hpde : (s.setEntry K (ptIndex va) (f * 4096 ||| (flags &&& 0xFFF) ||| 0x01)).entry d (pdIndex va) =
      s.entry d (pdIndex va) :=
    PagingState.entry_setEntry_of_ne (ptIndex_lt va) (pdIndex_lt (Working.scratch_word hva))
      fun he => h.apart he.1.symm
  refine ⟨h.window.cr3, Working.scratch_aligned hva, Working.scratch_word hva, ?_, ?_, ?_, ?_⟩
  · rw [hpde, Working.scratch_pdIndex hva]
    exact h.present
  · rw [hpde, Working.scratch_pdIndex hva]
    exact h.table
  · rw [hself]
    exact hpoints.present
  · rw [hself]
    exact hpoints.frame

end Bench

/-- The page table `K` differs at most in the entries of the scratch pages. -/
def ScratchOnly (K : ℕ) (s t : PagingState) : Prop :=
  ∀ j < 1024, j ≠ ptIndex forkScratchPtVa → j ≠ ptIndex forkScratchDataVa → t.entry K j = s.entry K j

namespace ScratchOnly

theorem refl (K : ℕ) (s : PagingState) : ScratchOnly K s s := fun _ _ _ _ => rfl

theorem trans (h : ScratchOnly K s t) (h' : ScratchOnly K t u) : ScratchOnly K s u :=
  fun j hj h₁ h₂ => (h' j hj h₁ h₂).trans (h j hj h₁ h₂)

theorem remounted (hva : ScratchVa va) (h : Remounted K va s t) : ScratchOnly K s t := by
  intro j hj h₁ h₂
  apply h.other j hj
  rcases hva with rfl | rfl
  · exact h₁
  · exact h₂

theorem of_within (h : Within g s t) (hg : K ≠ g) : ScratchOnly K s t := fun _ hj _ _ => h.entry hg hj

end ScratchOnly

/-- Mounting and unmounting touch the table of the scratch pages alone. -/
theorem Bench.mount_touched (h : Bench d K s) (hva : ScratchVa va) (f flags : ℕ) :
    Returns (mapPage (f * 4096) va flags s) fun t => Remounted K va s t ∧
      (f < 2 ^ 20 → Shows t d K va f) := by
  rw [h.mount_eq hva]
  exact returns_ok ⟨remounted_setEntry, fun hf => h.shows_mounted hva hf flags⟩

theorem Bench.unmount_touched (h : Bench d K s) (hva : ScratchVa va) :
    Returns (unmapPage va s) fun t => Remounted K va s t ∧ ¬Present (t.entry K (ptIndex va)) := by
  rw [h.unmount_eq hva]
  split
  · refine returns_ok ⟨remounted_setEntry, ?_⟩
    rw [PagingState.entry_setEntry_self (by decide)]
    decide
  · rename_i habsent
    exact returns_ok ⟨.refl K va s, habsent⟩

/-- The byte loop copies what the source page shows. -/
theorem copyPage_returns {src dst Q : ℕ} (hsrc : Shows s d Q src p) (hdst : Shows s d K dst g) (hd : d ≠ g)
    (hQ : Q ≠ g) (hK : K ≠ g) (hp : p ≠ g) :
    Returns (copyPage src dst s) fun t => Within g s t ∧
      ∀ o < 4096, t.mem (g * 4096 + o) = s.mem (p * 4096 + o) % 256 := by
  have hloop : Returns ((List.range' 0 pageSize).foldlM (fun s b => do
      let v ← s.readByte (src + b)
      s.writeByte (dst + b) v) s) fun t => Within g s t ∧
        ∀ o < 0 + pageSize, t.mem (g * 4096 + o) = s.mem (p * 4096 + o) % 256 := by
    refine returns_foldlM_range' (I := fun n t => Within g s t ∧
      ∀ o < n, t.mem (g * 4096 + o) = s.mem (p * 4096 + o) % 256) (fun b _ hb t ht => ?_)
      ⟨.refl g s, fun o ho => absurd ho (Nat.not_lt_zero o)⟩
    have hb : b < 4096 := by
      simp only [pageSize] at hb
      omega
    have hread : t.readByte (src + b) = .ok (t.mem (p * 4096 + b) % 256) := by
      unfold PagingState.readByte
      rw [(hsrc.within ht.1 hd hQ).translate_eq hb]
      rfl
    have hsame : t.mem (p * 4096 + b) = s.mem (p * 4096 + b) := ht.1.mem _ (by omega)
    rw [hread, ok_bind, (hdst.within ht.1 hd hK).writeByte_eq hb]
    refine returns_ok ⟨ht.1.trans (within_store8 hb), fun o ho => ?_⟩
    dsimp only [store8]
    by_cases hlast : o = b
    · subst hlast
      rw [Function.update_self, hsame, Nat.mod_mod]
    · rw [Function.update_of_ne (by omega)]
      exact ht.2 o (by omega)
  unfold copyPage
  rw [List.range_eq_range']
  refine hloop.mono fun t ht => ⟨ht.1, fun o ho => ht.2 o ?_⟩
  simp only [pageSize]
  omega

end HekaOS.Paging
