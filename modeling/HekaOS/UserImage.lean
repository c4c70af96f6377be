import HekaOS.Teardown

/-!
# `paging_load_user_image` takes what it maps

The loader takes a page table and a page for the code, and the same again for the stack. Whether it
comes to its end or runs out of frames on the way, the frames it has taken are those that
the user half of the new directory leads to.
-/

namespace HekaOS.Paging
open MachineWord KernelMemory KernelTriples ByteMemory PageWalk WordBitmap PhysPageFrame AddressMap
open Tasks (maxProc pageSize userCodeBase userStackTop)

variable {L : Layout} {s t u : PagingState} {T : Finset ℕ} {cur d dc f g i j K n p P pid q src va x : ℕ}

/-- What a call on the directory in frame `dc` finds: the one in frame `d` is current. -/
structure CallSite (d dc K : ℕ) (s : PagingState) : Prop where
  bench : Bench d K s
  reserved : ∀ f < reservedFrames, InUse s f
  dir : Aside dc K s d
  other : InUse s dc ∧ dc ≠ K
  kstack : InUse s K

theorem Site.callSite (h : Site d dc K s) : CallSite d dc K s := ⟨h.bench, h.reserved, h.dir, h.child, h.kstack⟩

theorem CallSite.touched (h : CallSite d dc K s) (ht : Touched {K, dc} T s t) : CallSite d dc K t :=
  ⟨h.bench.touched ht h.dir.inUse h.dir.out, fun f hf => ht.inUse (h.reserved f hf), h.dir.touched ht,
    ⟨ht.inUse h.other.1, h.other.2⟩, ht.inUse h.kstack⟩

theorem CallSite.ne_new (h : CallSite d dc K s) (hg : NewFrame s.bitmap g) : d ≠ g ∧ dc ≠ g ∧ K ≠ g := by
  have hne : ∀ f, InUse s f → f ≠ g := by
    rintro f hf rfl
    exact Bool.false_ne_true (hg.clear.symm.trans hf)
  exact ⟨hne d h.dir.inUse, hne dc h.other.1, hne K h.kstack⟩

/-! ### Reading the image -/

/-- The bytes lie in the first 4 MiB, which the current directory maps, or there are none to be read. -/
structure Legible (L : Layout) (d src n : ℕ) (s : PagingState) : Prop where
  cr3 : s.cr3 = d * 4096
  below : src = 0 ∨ src + n ≤ 0x00400000
  pde : Present (s.entry d 0)
  leads : s.entry d 0 / 4096 = L.fptFrame
  ptes : ∀ j < 1024, Present (s.entry L.fptFrame j)

theorem Legible.congr (h : Legible L d src n s) (hcr3 : t.cr3 = s.cr3) (hpde : t.entry d 0 = s.entry d 0)
    (hptes : ∀ j < 1024, t.entry L.fptFrame j = s.entry L.fptFrame j) : Legible L d src n t := by
  refine ⟨hcr3.trans h.cr3, h.below, ?_, ?_, fun j hj => ?_⟩
  · rw [hpde]
    exact h.pde
  · rw [hpde]
    exact h.leads
  · rw [hptes j hj]
    exact h.ptes j hj

theorem Legible.readImage (h : Legible L d src n s) (hsrc : src ≠ 0) (hp : p < n) :
    ∃ v, s.readImage L p (add32 src p) = .ok v := by
  have hbelow := h.below.resolve_left hsrc
  have hword : add32 src p = src + p := by
    unfold add32
    simp only [wordSize]
    omega
  have hpd : pdIndex (src + p) = 0 := by
    unfold pdIndex
    omega
  have hmaps : Maps s d (pdIndex (src + p)) (ptIndex (src + p)) := by
    rw [hpd]
    refine ⟨h.pde, ?_⟩
    rw [h.leads]
    exact h.ptes _ (ptIndex_lt _)
  unfold PagingState.readImage PagingState.translate
  rw [hword, h.cr3, walk_dir, if_pos hmaps]
  exact ⟨_, rfl⟩

/-- Stores to frame `g` change neither where the address leads nor the byte that is found there. -/
def Steady (g : ℕ) (s : PagingState) (va : ℕ) : Prop :=
  ∀ t, Within g s t → walk t.mem t.cr3 va = walk s.mem s.cr3 va ∧ ∀ a, walk s.mem s.cr3 va = some a → t.mem a = s.mem a

/-- The bytes of frame `g` in `t`, from what could be read in `s`. -/
structure Filled (L : Layout) (src n g : ℕ) (s t : PagingState) : Prop where
  copied : src ≠ 0 → ∀ b < n, Steady g s (add32 src b) →
    ∃ a, walk s.mem s.cr3 (add32 src b) = some a ∧ (L.own a = false → t.mem (g * 4096 + b) = s.mem a % 256)
  null : src = 0 → ∀ b < n, t.mem (g * 4096 + b) = 0
  rest : ∀ b, n ≤ b → b < 4096 → t.mem (g * 4096 + b) = 0

theorem readImage_ok (hok : s.readImage L b va = .ok x) :
    ∃ a, walk s.mem s.cr3 va = some a ∧ (L.own a = false → x = s.mem a % 256) := by
  unfold PagingState.readImage at hok
  obtain ⟨a, ha, hx⟩ := bind_eq_ok.mp hok
  unfold PagingState.translate at ha
  cases hwalk : walk s.mem s.cr3 va with
  | none =>
    rw [hwalk] at ha
    cases ha
  | some a' =>
    rw [hwalk] at ha
    obtain rfl := Except.ok.inj ha
    refine ⟨a', rfl, fun hown => ?_⟩
    rw [if_neg (ne_true_of_eq_false hown)] at hx
    exact (Except.ok.inj hx).symm

/-- The loop that clears the bytes from `i` on. -/
theorem Shows.clearBytes (h : Shows s d K va g) (hd : d ≠ g) (hK : K ≠ g) (hij : i + j ≤ 4096) (ht : Within g s t) :
    Ensures ((List.range' i j).foldlM (fun s b => s.writeByte (va + b) 0) t) fun u => Within g s u ∧
      (∀ b, i ≤ b → b < i + j → u.mem (g * 4096 + b) = 0) ∧ ∀ b < i, u.mem (g * 4096 + b) = t.mem (g * 4096 + b) := by
  refine ensures_foldlM_range' (I := fun k u => Within g s u ∧ (∀ b, i ≤ b → b < k → u.mem (g * 4096 + b) = 0) ∧
    ∀ b < i, u.mem (g * 4096 + b) = t.mem (g * 4096 + b)) (fun k hk hk' u hu => ?_)
    ⟨ht, fun b hb hb' => absurd hb (Nat.not_le.mpr hb'), fun _ _ => rfl⟩
  obtain ⟨hw, hclear, hkept⟩ := hu
  have hk4 : k < 4096 := by omega
  rw [(h.within hw hd hK).writeByte_eq hk4]
  refine ensures_ok ⟨hw.trans (within_store8 hk4), fun b hb hb' => ?_, fun b hb => ?_⟩
  · dsimp only [store8]
    by_cases hlast : b = k
    · rw [hlast, Function.update_self]
    · rw [Function.update_of_ne (by omega)]
      exact hclear b hb (by omega)
  · dsimp only [store8]
    rw [Function.update_of_ne (by omega)]
    exact hkept b hb

/-- The loop that copies the bytes at `src`. -/
theorem Shows.copyBytes (h : Shows s d K va g) (hd : d ≠ g) (hK : K ≠ g) (hn : n ≤ 4096) :
    Ensures ((List.range' 0 n).foldlM (fun s b => do
        let v ← s.readImage L b (add32 src b)
        s.writeByte (va + b) v) s) fun t => Within g s t ∧ ∀ b < 0 + n, Steady g s (add32 src b) →
      ∃ a, walk s.mem s.cr3 (add32 src b) = some a ∧ (L.own a = false → t.mem (g * 4096 + b) = s.mem a % 256) := by
  refine ensures_foldlM_range' (I := fun k t => Within g s t ∧ ∀ b < k, Steady g s (add32 src b) →
    ∃ a, walk s.mem s.cr3 (add32 src b) = some a ∧ (L.own a = false → t.mem (g * 4096 + b) = s.mem a % 256))
    (fun k hk hk' t ht => ?_)
    ⟨.refl g s, fun b hb => absurd hb (Nat.not_lt_zero b)⟩
  obtain ⟨hw, hcopied⟩ := ht
  have hk4 : k < 4096 := by omega
  refine Ensures.bind (Q := fun v => t.readImage L k (add32 src k) = .ok v) (fun _ hv => hv) fun v hv => ?_
  rw [(h.within hw hd hK).writeByte_eq hk4]
  refine ensures_ok ⟨hw.trans (within_store8 hk4), fun b hb hsteady => ?_⟩
  dsimp only [store8]
  by_cases hlast : b = k
  · obtain ⟨a, ha, hva⟩ := readImage_ok hv
    subst hlast
    obtain ⟨hwalk, hbyte⟩ := hsteady t hw
    rw [hwalk] at ha
    refine ⟨a, ha, fun hown => ?_⟩
    rw [Function.update_self, hva hown, hbyte a ha, Nat.mod_mod]
  · obtain ⟨a, ha, hbyte⟩ := hcopied b (by omega) hsteady
    refine ⟨a, ha, fun hown => ?_⟩
    rw [Function.update_of_ne (by omega)]
    exact hbyte hown

theorem Shows.fillPage_filled (h : Shows s d K forkScratchDataVa g) (hd : d ≠ g) (hK : K ≠ g) (hn : n ≤ 4096) :
    Ensures (Paging.fillPage L src n s) fun t => Within g s t ∧ Filled L src n g s t := by
  unfold Paging.fillPage
  rw [List.range_eq_range', List.range_eq_range']
  split
  · rename_i hsrc
    refine (h.copyBytes hd hK hn).bind fun t ht => ?_
    obtain ⟨hw, hcopied⟩ := ht
    refine (h.clearBytes hd hK (i := n) (j := pageSize - n) ?_ hw).mono fun u hu => ?_
    · simp only [pageSize]
      omega
    obtain ⟨hw', hclear, hkept⟩ := hu
    refine ⟨hw', ⟨fun _ b hb hsteady => ?_, fun hnull => absurd hnull hsrc.1, fun b hb hb' => hclear b hb ?_⟩⟩
    · obtain ⟨a, ha, hbyte⟩ := hcopied b (by omega) hsteady
      exact ⟨a, ha, fun hown => (hkept b hb).trans (hbyte hown)⟩
    · simp only [pageSize]
      omega
  · rename_i hsrc
    refine (h.clearBytes hd hK (i := 0) (j := pageSize) (by decide) (.refl g s)).mono fun u hu => ?_
    obtain ⟨hw, hclear, -⟩ := hu
    have hzero : ∀ b < 4096, u.mem (g * 4096 + b) = 0 := fun b hb => hclear b (Nat.zero_le b) (by simpa [pageSize] using hb)
    refine ⟨hw, ⟨fun hne b hb => ?_, fun _ b hb => hzero b (by omega), fun b _ hb => hzero b hb⟩⟩
    exact absurd ⟨hne, Nat.zero_lt_of_lt hb⟩ hsrc

/-- The bytes of a page are stored to its frame. -/
theorem fillPage_meets (hshows : Shows s d K forkScratchDataVa g) (hd : d ≠ g) (hK : K ≠ g) (hfpt : L.fptFrame ≠ g)
    (hn : n ≤ 4096) : Meets (Legible L d src n s) (fillPage L src n s) fun t => Within g s t ∧ Filled L src n g s t := by
  refine ⟨hshows.fillPage_filled hd hK hn, fun hlegible => ?_⟩
  have hstore : ∀ a m, a + m ≤ 4096 → ∀ t, Within g s t →
      Returns ((List.range' a m).foldlM (fun s b => s.writeByte (forkScratchDataVa + b) 0) t) (Within g s) := by
    intro a m ham t ht
    refine returns_foldlM_range' (I := fun _ t => Within g s t) (fun b hb hb' t ht => ?_) ht
    rw [(hshows.within ht hd hK).writeByte_eq (by omega)]
    exact returns_ok (ht.trans (within_store8 (by omega)))
  obtain ⟨a, ha, -⟩ : Returns (fillPage L src n s) (Within g s) := by
    unfold fillPage
    split
    · rename_i hsrc
      refine Returns.bind (Q := Within g s) ?_ fun t ht => ?_
      · rw [List.range_eq_range']
        refine returns_foldlM_range' (I := fun _ t => Within g s t) (fun b hb hb' t ht => ?_) (.refl g s)
        have hcongr := hlegible.congr ht.cr3 (ht.entry hd (by decide)) fun j hj => ht.entry hfpt hj
        obtain ⟨v, hv⟩ := hcongr.readImage hsrc.1 (by omega : b < n)
        rw [hv, ok_bind, (hshows.within ht hd hK).writeByte_eq (by omega)]
        exact returns_ok (ht.trans (within_store8 (by omega)))
      · refine hstore n (pageSize - n) ?_ t ht
        simp only [pageSize]
        omega
    · rw [List.range_eq_range']
      exact hstore 0 pageSize (by decide) s (.refl g s)
  exact ⟨a, ha⟩

/-! ### A new page table -/

/-- Frame `g` was free and is an empty page table at index `p` of the directory in frame `dc` now. -/
structure TableIn (dc K p g : ℕ) (s t : PagingState) : Prop where
  new : NewFrame s.bitmap g
  touched : Touched {K, dc} {g} s t
  scratch : ScratchOnly K s t
  pde : Points (t.entry dc p) g
  others : ∀ i < 1024, i ≠ p → t.entry dc i = s.entry dc i
  empty : ∀ q < 1024, t.entry g q = 0

theorem touched_new (hg : NewFrame s.bitmap g) (W : Set ℕ) :
    Touched W {g} s { s with bitmap := bitmapSet s.bitmap g } := by
  have htake := Touched.take hg
  exact ⟨htake.cr3, htake.bitmap, htake.fresh, fun a ha _ => htake.kept a ha (Set.notMem_empty _)⟩

theorem CallSite.userPt_returns (h : CallSite d (L.dir pid) K s) (hp : p < 768)
    (habsent : ¬Present (s.entry (L.dir pid) p)) :
    Returns (userPt L pid p s) fun r => r.1 = none ∧ r.2 = s ∧ Full s ∨
      ∃ g, r.1 = some (g * 4096) ∧ TableIn (L.dir pid) K p g s r.2 ∧
        r.2.entry (L.dir pid) p = g * 4096 ||| (pagePresent ||| pageRw ||| pageUser) := by
  unfold userPt
  rw [load_dir]
  dsimp only
  rw [if_pos (present_iff.mpr habsent)]
  rcases allocFrame_split h.reserved with ⟨hfull, hr⟩ | ⟨g, hg, hlow, hr⟩
  · rw [hr, if_pos rfl]
    exact returns_ok (.inl ⟨rfl, rfl, hfull⟩)
  rw [hr, if_neg (frame_ne_zero hlow)]
  dsimp only
  obtain ⟨hdg, hcg, hKg⟩ := h.ne_new hg
  have hglt : g < 2 ^ 20 := hg.lt.trans (by decide)
  have htaken := touched_new hg {K, L.dir pid}
  have hbench : Bench d K { s with bitmap := bitmapSet s.bitmap g } := h.bench.congr rfl fun _ _ => rfl
  refine (hbench.mount_touched (.inl rfl) g _).bind fun t₁ h₁ => ?_
  obtain ⟨hmount, hshows⟩ := h₁
  rw [(hshows hglt).zeroTable_eq hdg hKg, ok_bind]
  obtain ⟨t₂, ht₂⟩ : ∃ t₂, t₁.clearTable g = t₂ := ⟨_, rfl⟩
  have hclear : Within g t₁ t₂ := ht₂ ▸ within_clearTable
  have hempty : ∀ q < 1024, t₂.entry g q = 0 := fun q hq => ht₂ ▸ entry_clearTable hq
  rw [ht₂]
  have h₂ := (htaken.and_then (Touched.of_within hmount.within) (by simp)).and_then (Touched.of_within hclear) (by simp)
  refine ((h.bench.touched h₂ h.dir.inUse h.dir.out).unmount_touched (.inl rfl)).bind fun t₃ h₃ => ?_
  obtain ⟨hunmount, -⟩ := h₃
  rw [setWord_dir]
  have hpoints : Points (g * 4096 ||| (pagePresent ||| pageRw ||| pageUser)) g :=
    points_or hglt (by decide) (by decide)
  obtain ⟨u, hu⟩ : ∃ u, t₃.setEntry (L.dir pid) p (g * 4096 ||| (pagePresent ||| pageRw ||| pageUser)) = u := ⟨_, rfl⟩
  have hset : Within (L.dir pid) t₃ u := hu ▸ within_setEntry (by omega)
  have hself : u.entry (L.dir pid) p = g * 4096 ||| (pagePresent ||| pageRw ||| pageUser) :=
    hu ▸ PagingState.entry_setEntry_self hpoints.word
  rw [hu]
  have h₃ := (h₂.and_then (Touched.of_within hunmount.within) (by simp)).and_then (Touched.of_within hset) (by simp)
  refine returns_ok (.inr ⟨g, rfl, ⟨hg, h₃, ?_, ?_, fun i hi hne => ?_, fun q hq => ?_⟩, hself⟩)
  · have hmounted : ScratchOnly K s t₁ := fun j hj h₁ h₂ => ScratchOnly.remounted (.inl rfl) hmount j hj h₁ h₂
    have hcleared := hmounted.trans (.of_within hclear hKg)
    exact (hcleared.trans (.remounted (.inl rfl) hunmount)).trans (.of_within hset h.other.2.symm)
  · rw [hself]
    exact hpoints
  · rw [← hu, PagingState.entry_setEntry_of_ne (by omega) hi fun he => hne he.2, hunmount.within.entry h.other.2 hi,
      hclear.entry hcg hi]
    exact hmount.within.entry h.other.2 hi
  · rw [hset.entry hcg.symm hq, hunmount.within.entry hKg.symm hq]
    exact hempty q hq

/-! ### A page behind it -/

/-- Frame `f` was free and is the only page behind the table in frame `g` now. -/
structure PageLoaded (dc K g q f : ℕ) (s t : PagingState) : Prop where
  new : NewFrame s.bitmap f
  touched : Touched {K, dc, g} {f} s t
  scratch : ScratchOnly K s t
  dir : ∀ i < 1024, t.entry dc i = s.entry dc i
  entry : Points (t.entry g q) f
  others : ∀ j < 1024, j ≠ q → t.entry g j = s.entry g j

theorem Filled.congr (h : Filled L src n f s t) (hn : n ≤ 4096) (hu : Within K t u) (hK : K ≠ f) :
    Filled L src n f s u := by
  have hbyte : ∀ b < 4096, u.mem (f * 4096 + b) = t.mem (f * 4096 + b) := fun b hb => hu.mem _ (by omega)
  refine ⟨fun hsrc b hb hsteady => ?_, fun hsrc b hb => ?_, fun b hb hb' => ?_⟩
  · obtain ⟨a, ha, hcopied⟩ := h.copied hsrc b hb hsteady
    exact ⟨a, ha, fun hown => (hbyte b (by omega)).trans (hcopied hown)⟩
  · exact (hbyte b (by omega)).trans (h.null hsrc b hb)
  · exact (hbyte b hb').trans (h.rest b hb hb')

/-- The page behind entry `q`, and how it came by its bytes: while it was mounted, in state `u`. -/
structure PageBytes (L : Layout) (dc K g q f src n : ℕ) (s t : PagingState) : Prop where
  entry : t.entry g q = f * 4096 ||| (pagePresent ||| pageRw ||| pageUser)
  unmounted : ∀ va, ScratchVa va → ¬Present (t.entry K (ptIndex va))
  filled : ∃ u, Touched {K, dc, g} {f} s u ∧ ScratchOnly K s u ∧ (∀ i < 1024, u.entry dc i = s.entry dc i) ∧
    Filled L src n f u t

/-- The rest of `load_user_page`, behind the page table. -/
def loadInto (L : Layout) (ptPhys va src copySize : ℕ) (s : PagingState) : Kernel (Bool × PagingState) :=
  let f := physAllocFrame s.bitmap
  if f.1 = 0 then .ok (false, s)
  else do
    let s ← mapPage ptPhys forkScratchPtVa (pagePresent ||| pageRw) { s with bitmap := f.2 }
    let s ← s.write (forkScratchPtVa + 4 * ptIndex va) (f.1 ||| (pagePresent ||| pageRw ||| pageUser))
    let s ← unmapPage forkScratchPtVa s
    let s ← mapPage f.1 forkScratchDataVa (pagePresent ||| pageRw) s
    let s ← fillPage L src copySize s
    let s ← unmapPage forkScratchDataVa s
    .ok (true, s)

theorem loadUserPage_eq (va src n : ℕ) : loadUserPage L pid va src n s =
    userPt L pid (pdIndex va) s >>= fun r =>
      match r.1 with
      | none => .ok (false, r.2)
      | some ptPhys => loadInto L ptPhys va src n r.2 := rfl

theorem CallSite.loadInto_meets (h : CallSite d dc K s) (hg : InUse s g) (hdg : d ≠ g) (hcg : dc ≠ g) (hKg : K ≠ g)
    (hglt : g < 2 ^ 20) (hfpt : L.fptFrame ∉ ({K, dc, g} : Set ℕ)) (hn : n ≤ 4096) :
    Meets (Legible L d src n s) (loadInto L (g * 4096) va src n s) fun r => r.1 = false ∧ r.2 = s ∧ Full s ∨
      r.1 = true ∧ ∃ f, PageLoaded dc K g (ptIndex va) f s r.2 ∧
        PageBytes L dc K g (ptIndex va) f src n s r.2 := by
  unfold loadInto
  dsimp only
  rcases allocFrame_split h.reserved with ⟨hfull, hr⟩ | ⟨f, hf, hlow, hr⟩
  · rw [hr, if_pos rfl]
    exact meets_ok (.inl ⟨rfl, rfl, hfull⟩)
  rw [hr, if_neg (frame_ne_zero hlow)]
  dsimp only
  obtain ⟨hdf, hcf, hKf⟩ := h.ne_new hf
  have hgf : g ≠ f := by
    rintro rfl
    exact Bool.false_ne_true (hf.clear.symm.trans hg)
  have hflt : f < 2 ^ 20 := hf.lt.trans (by decide)
  have hfptf : L.fptFrame ≠ f := by
    have := L.fpt_low
    omega
  have htaken := touched_new hf {K, dc, g}
  have hout : d ∉ ({K, dc, g} : Set ℕ) := by
    rintro (he | he | he)
    · exact h.dir.ne_kstack he
    · exact h.dir.ne_child he
    · exact hdg he
  have hbench : Bench d K { s with bitmap := bitmapSet s.bitmap f } := h.bench.congr rfl fun _ _ => rfl
  -- the page table is mounted for the entry
  refine (hbench.mount_touched (.inl rfl) g _).meets.bind fun t₁ h₁ => ?_
  obtain ⟨hmount, hshows⟩ := h₁
  have hpoints : Points (f * 4096 ||| (pagePresent ||| pageRw ||| pageUser)) f :=
    points_or hflt (by decide) (by decide)
  rw [(hshows hglt).write_eq (ptIndex_lt va), ok_bind]
  obtain ⟨t₂, ht₂⟩ : ∃ t₂, t₁.setEntry g (ptIndex va) (f * 4096 ||| (pagePresent ||| pageRw ||| pageUser)) = t₂ := ⟨_, rfl⟩
  have hset : Within g t₁ t₂ := ht₂ ▸ within_setEntry (ptIndex_lt va)
  have hself : t₂.entry g (ptIndex va) = f * 4096 ||| (pagePresent ||| pageRw ||| pageUser) :=
    ht₂ ▸ PagingState.entry_setEntry_self hpoints.word
  have hrest : ∀ j < 1024, j ≠ ptIndex va → t₂.entry g j = t₁.entry g j := fun j hj hne =>
    ht₂ ▸ PagingState.entry_setEntry_of_ne (ptIndex_lt va) hj fun he => hne he.2
  rw [ht₂]
  have htouched₂ := (htaken.and_then (Touched.of_within hmount.within) (by simp)).and_then
    (Touched.of_within hset) (by simp)
  have hbench₂ := h.bench.touched htouched₂ h.dir.inUse hout
  refine (hbench₂.unmount_touched (.inl rfl)).meets.bind fun t₃ h₃ => ?_
  obtain ⟨hunmount, hpt⟩ := h₃
  have htouched₃ := htouched₂.and_then (Touched.of_within hunmount.within) (by simp)
  -- and the page for its bytes
  refine ((h.bench.touched htouched₃ h.dir.inUse hout).mount_touched (.inr rfl) f _).meets.bind fun t₄ h₄ => ?_
  obtain ⟨hmount', hshows'⟩ := h₄
  have htouched₄ := htouched₃.and_then (Touched.of_within hmount'.within) (by simp)
  have hmounted₄ : ScratchOnly K s t₄ := by
    have hmounted : ScratchOnly K s t₁ := fun j hj h₁ h₂ => ScratchOnly.remounted (.inl rfl) hmount j hj h₁ h₂
    have hstored := hmounted.trans (.of_within hset hKg)
    exact (hstored.trans (.remounted (.inl rfl) hunmount)).trans (.remounted (.inr rfl) hmount')
  have hfill : Meets (Legible L d src n s) (fillPage L src n t₄) fun t => Within f t₄ t ∧ Filled L src n f t₄ t := by
    have hmeets : Meets (Legible L d src n t₄) _ _ := fillPage_meets (hshows' hflt) hdf hKf hfptf hn
    refine ⟨hmeets.1, fun hlegible => hmeets.2 (hlegible.congr htouched₄.cr3 ?_ fun j hj => ?_)⟩
    · exact htouched₄.entry h.dir.inUse hout (by decide)
    · exact htouched₄.entry (h.reserved _ L.fpt_low) hfpt hj
  refine hfill.bind fun t₅ h₅ => ?_
  obtain ⟨h₅, hfilled⟩ := h₅
  have htouched₅ := htouched₄.and_then (Touched.of_within h₅) (by simp)
  refine ((h.bench.touched htouched₅ h.dir.inUse hout).unmount_touched (.inr rfl)).meets.bind fun t₆ h₆ => ?_
  obtain ⟨hunmount', hdata⟩ := h₆
  have htouched₆ := htouched₅.and_then (Touched.of_within hunmount'.within) (by simp)
  have hentry : ∀ e, e ≠ K → e ≠ f → ∀ j < 1024, t₆.entry e j = t₂.entry e j := by
    intro e heK hef j hj
    rw [hunmount'.within.entry heK hj, h₅.entry hef hj, hmount'.within.entry heK hj, hunmount.within.entry heK hj]
  have hpte : t₆.entry g (ptIndex va) = f * 4096 ||| (pagePresent ||| pageRw ||| pageUser) := by
    rw [hentry g hKg.symm hgf _ (ptIndex_lt va), hself]
  refine meets_ok (.inr ⟨rfl, f, ⟨hf, htouched₆, ?_, fun i hi => ?_, ?_, fun j hj hne => ?_⟩, hpte, fun va' hva' => ?_,
    t₄, htouched₄, hmounted₄, fun i hi => ?_, hfilled.congr hn hunmount'.within hKf⟩)
  · exact (hmounted₄.trans (.of_within h₅ hKf)).trans (.remounted (.inr rfl) hunmount')
  · rw [hentry dc h.other.2 hcf i hi, hset.entry hcg hi]
    exact hmount.within.entry h.other.2 hi
  · rw [hpte]
    exact hpoints
  · rw [hentry g hKg.symm hgf j hj, hrest j hj hne]
    exact hmount.within.entry hKg.symm hj
  · rcases hva' with rfl | rfl
    · -- the first scratch page was given up before the second one was used
      rw [hunmount'.other _ (ptIndex_lt _) (by decide), h₅.entry hKf (ptIndex_lt _),
        hmount'.other _ (ptIndex_lt _) (by decide)]
      exact hpt
    · exact hdata
  · rw [hmount'.within.entry h.other.2 hi, hunmount.within.entry h.other.2 hi, hset.entry hcg hi]
    exact hmount.within.entry h.other.2 hi

/-! ### The image -/

/-- The user half gains one page table, and what is behind it. -/
theorem frameBelow_grow (hp : 0 < p) (hp' : p < 768) (hdir : ∀ i < 1024, i ≠ p → u.entry dc i = t.entry dc i)
    (habsent : ¬Present (t.entry dc p)) (hpde : Points (u.entry dc p) g)
    (hkeep : ∀ i, 0 < i → i < 768 → Present (t.entry dc i) → ∀ q < 1024,
      u.entry (t.entry dc i / 4096) q = t.entry (t.entry dc i / 4096) q) (x : ℕ) :
    FrameBelow u dc 768 x ↔ FrameBelow t dc 768 x ∨ x = g ∨ PageBelow u g 1024 x := by
  have hpage : ∀ i, 0 < i → i < 768 → Present (t.entry dc i) →
      (PageBelow u (t.entry dc i / 4096) 1024 x ↔ PageBelow t (t.entry dc i / 4096) 1024 x) := by
    intro i hi hi' hpresent
    refine exists_congr fun q => and_congr_right fun hq => ?_
    rw [hkeep i hi hi' hpresent q hq]
  constructor
  · rintro ⟨i, hi, hi', hpresent, hx⟩
    by_cases hip : i = p
    · subst hip
      rw [hpde.frame] at hx
      exact .inr (hx.imp_left Eq.symm)
    · rw [hdir i (by omega) hip] at hpresent hx
      rw [hpage i hi hi' hpresent] at hx
      exact .inl ⟨i, hi, hi', hpresent, hx⟩
  · rintro (⟨i, hi, hi', hpresent, hx⟩ | hx)
    · have hip : i ≠ p := by
        rintro rfl
        exact habsent hpresent
      have hsame := hdir i (by omega) hip
      rw [← hpage i hi hi' hpresent, ← hsame] at hx
      rw [← hsame] at hpresent
      exact ⟨i, hi, hi', hpresent, hx⟩
    · refine ⟨p, hp, hp', hpde.present, ?_⟩
      rw [hpde.frame]
      exact hx.imp_left Eq.symm

/-- The frames that were taken are those of the user half. -/
structure Loaded (dc K : ℕ) (s t : PagingState) (T : Finset ℕ) : Prop where
  touched : Touched {K, dc} T s t
  scratch : ScratchOnly K s t
  frames : ∀ x, FrameBelow t dc 768 x ↔ x ∈ T
  others : ∀ i < 1024, i < 1 ∨ 768 ≤ i → t.entry dc i = s.entry dc i

theorem Loaded.refl (hempty : ∀ p, 0 < p → p < 768 → ¬Present (s.entry dc p)) : Loaded dc K s s ∅ := by
  refine ⟨.refl _ s, .refl K s, fun x => iff_of_false ?_ (Finset.notMem_empty x), fun _ _ _ => rfl⟩
  rintro ⟨p, hp, hp', hpresent, -⟩
  exact hempty p hp hp' hpresent

/-- One more page table, with the page behind it if there was a frame left. -/
theorem Loaded.grow (h : Loaded dc K s t T) (hs : CallSite d dc K s) (hp : 0 < p) (hp' : p < 768)
    (habsent : ¬Present (t.entry dc p)) {T' : Finset ℕ} (hu : Touched {K, dc} T' t u) (hscratch : ScratchOnly K t u)
    (hdir : ∀ i < 1024, i ≠ p → u.entry dc i = t.entry dc i) (hpde : Points (u.entry dc p) g)
    (hbehind : ∀ x, x = g ∨ PageBelow u g 1024 x ↔ x ∈ T') : Loaded dc K s u (T ∪ T') := by
  refine ⟨h.touched.trans hu fun f hf => .inl hf, h.scratch.trans hscratch, fun x => ?_, fun i hi hin => ?_⟩
  · have hkeep : ∀ i, 0 < i → i < 768 → Present (t.entry dc i) → ∀ q < 1024,
        u.entry (t.entry dc i / 4096) q = t.entry (t.entry dc i / 4096) q := by
      intro i hi hi' hpresent q hq
      have hmem : t.entry dc i / 4096 ∈ T := (h.frames _).mp ⟨i, hi, hi', hpresent, .inl rfl⟩
      refine hu.entry (h.touched.inUse_of_mem hmem) ?_ hq
      rintro (he | he)
      · exact h.touched.not_mem hs.kstack (he ▸ hmem)
      · exact h.touched.not_mem hs.other.1 (he ▸ hmem)
    rw [frameBelow_grow hp hp' hdir habsent hpde hkeep, h.frames x, hbehind x, Finset.mem_union]
  · rw [hdir i hi (by omega)]
    exact h.others i hi hin

/-- What `load_user_page` leaves. -/
structure PageTried (dc K p : ℕ) (s t : PagingState) (T : Finset ℕ) (r : Bool × PagingState) (T' : Finset ℕ) :
    Prop where
  loaded : Loaded dc K s r.2 T'
  others : ∀ i < 1024, i ≠ p → r.2.entry dc i = t.entry dc i
  full : r.1 = false → Full r.2 ∧ T'.card < T.card + 2
  done : r.1 = true → T'.card = T.card + 2

theorem Loaded.loadUserPage_meets (h : Loaded (L.dir pid) K s t T) (hs : CallSite d (L.dir pid) K s)
    (hfpt : L.fptFrame ≠ K) (hpid : pid < maxProc) (hp : 0 < pdIndex va) (hp' : pdIndex va < 768)
    (habsent : ¬Present (t.entry (L.dir pid) (pdIndex va))) (hn : n ≤ 4096) :
    Meets (Legible L d src n s) (loadUserPage L pid va src n t) fun r =>
      ∃ T', PageTried (L.dir pid) K (pdIndex va) s t T r T' := by
  have hfptdc : L.fptFrame ≠ L.dir pid := (dir_ne_fpt hpid).symm
  have hsite := hs.touched h.touched
  rw [loadUserPage_eq]
  refine (hsite.userPt_returns hp' habsent).meets.bind fun r hr => ?_
  obtain ⟨a, t₁⟩ := r
  rcases hr with ⟨rfl, rfl, hfull⟩ | ⟨g, rfl, htable, -⟩
  · exact meets_ok ⟨T, h, fun _ _ _ => rfl, fun _ => ⟨hfull, by omega⟩, nofun⟩
  have hsite₁ := hsite.touched htable.touched
  obtain ⟨hdg, hcg, hKg⟩ := hsite.ne_new htable.new
  have hgT : g ∉ T := fun hmem => (h.touched.newFrame htable.new).2 hmem
  have hg : InUse t₁ g := htable.touched.inUse_of_mem (Finset.mem_singleton_self g)
  have hglt : g < 2 ^ 20 := htable.new.lt.trans (by decide)
  have hglow : reservedFrames ≤ g := by
    by_contra hlt
    exact Bool.false_ne_true (htable.new.clear.symm.trans (hsite.reserved g (Nat.not_le.mp hlt)))
  have hout : L.fptFrame ∉ ({K, L.dir pid, g} : Set ℕ) := by
    have := L.fpt_low
    rintro (he | he | he)
    · exact hfpt he
    · exact hfptdc he
    · have he : L.fptFrame = g := he
      omega
  have hboth := h.touched.trans htable.touched fun f hf => .inl hf
  have hlegible : Meets (Legible L d src n s) (loadInto L (g * 4096) va src n t₁) fun r =>
      r.1 = false ∧ r.2 = t₁ ∧ Full t₁ ∨ r.1 = true ∧ ∃ f, PageLoaded (L.dir pid) K g (ptIndex va) f t₁ r.2 ∧
        PageBytes L (L.dir pid) K g (ptIndex va) f src n t₁ r.2 := by
    have hmeets : Meets _ (loadInto L (g * 4096) va src n t₁) _ := hsite₁.loadInto_meets hg hdg hcg hKg hglt hout hn
    refine ⟨hmeets.1, fun hlegible => hmeets.2 (hlegible.congr hboth.cr3 ?_ fun j hj => ?_)⟩
    · exact hboth.entry hs.dir.inUse hs.dir.out (by decide)
    · refine hboth.entry (hs.reserved _ L.fpt_low) ?_ hj
      rintro (he | he)
      · exact hfpt he
      · exact hfptdc he
  refine hlegible.mono fun r hr => ?_
  obtain ⟨ok, u⟩ := r
  rcases hr with ⟨rfl, rfl, hfull⟩ | ⟨rfl, f, hpage, -⟩
  · refine ⟨T ∪ {g}, h.grow hs hp hp' habsent htable.touched htable.scratch htable.others htable.pde fun x => ?_,
      htable.others, fun _ => ⟨hfull, ?_⟩, nofun⟩
    · rw [Finset.mem_singleton]
      refine or_iff_left ?_
      rintro ⟨q, hq, hpresent, -⟩
      rw [htable.empty q hq] at hpresent
      exact absurd hpresent (by decide)
    · rw [Finset.card_union_of_disjoint (Finset.disjoint_singleton_right.mpr hgT), Finset.card_singleton]
      omega
  · have htouched : Touched {K, L.dir pid} ({g} ∪ {f}) t u := by
      refine htable.touched.trans hpage.touched fun x hx => ?_
      rcases hx with hx | hx | hx
      · exact .inl (.inl hx)
      · exact .inl (.inr hx)
      · exact .inr (Finset.mem_singleton.mpr hx)
    have hdir : ∀ i < 1024, i ≠ pdIndex va → u.entry (L.dir pid) i = t.entry (L.dir pid) i := by
      intro i hi hne
      rw [hpage.dir i hi, htable.others i hi hne]
    have hpde : Points (u.entry (L.dir pid) (pdIndex va)) g := by
      rw [hpage.dir _ (by omega)]
      exact htable.pde
    have hcard := Finset.card_union_of_disjoint (hboth.disjoint hpage.touched)
    refine ⟨T ∪ ({g} ∪ {f}), h.grow hs hp hp' habsent htouched (htable.scratch.trans hpage.scratch) hdir hpde
      fun x => ?_, hdir, nofun, fun _ => ?_⟩
    · rw [Finset.mem_union, Finset.mem_singleton, Finset.mem_singleton]
      refine or_congr_right ⟨?_, fun hx => ?_⟩
      · rintro ⟨q, hq, hpresent, hx⟩
        by_cases hlast : q = ptIndex va
        · subst hlast
          rw [hpage.entry.frame] at hx
          exact hx.symm
        · rw [hpage.others q hq hlast, htable.empty q hq] at hpresent
          exact absurd hpresent (by decide)
      · subst hx
        exact ⟨ptIndex va, ptIndex_lt va, hpage.entry.present, hpage.entry.frame⟩
    · rw [← Finset.union_assoc, hcard, Finset.card_union_of_disjoint (Finset.disjoint_singleton_right.mpr hgT),
        Finset.card_singleton, Finset.card_singleton]

/-- The loader, over an empty user half. -/
theorem CallSite.pagingLoadUserImage_meets (hs : CallSite d (L.dir pid) K s) (hfpt : L.fptFrame ≠ K)
    (hpid : pid < maxProc) (hempty : ∀ p, 0 < p → p < 768 → ¬Present (s.entry (L.dir pid) p))
    (hn : 0 < n) (hn' : n ≤ 4096) :
    Meets (Legible L d src n s ∧ Legible L d 0 0 s) (pagingLoadUserImage L pid src n s) fun r =>
      ∃ T, Loaded (L.dir pid) K s r.2 T ∧ (r.1 = false → Full r.2 ∧ T.card < 4) ∧ (r.1 = true → T.card = 4) := by
  have hcode : pdIndex userCodeBase = 32 := by decide
  have hstack : pdIndex (userStackTop - pageSize) = 767 := by decide
  have hguard : ¬(n = 0 ∨ pageSize < n) := by
    simp only [pageSize]
    omega
  unfold pagingLoadUserImage
  rw [if_neg hguard]
  have hfirst : Meets _ (loadUserPage L pid userCodeBase src n s) _ := (Loaded.refl hempty).loadUserPage_meets hs hfpt
    hpid (by decide) (by decide) (hempty _ (by decide) (by decide)) hn'
  have hfirst : Meets (Legible L d src n s ∧ Legible L d 0 0 s) (loadUserPage L pid userCodeBase src n s) fun r =>
      ∃ T, PageTried (L.dir pid) K (pdIndex userCodeBase) s s ∅ r T := ⟨hfirst.1, fun hl => hfirst.2 hl.1⟩
  refine hfirst.bind fun r hr => ?_
  obtain ⟨ok, t⟩ := r
  obtain ⟨T, htried⟩ := hr
  cases ok with
  | false =>
    obtain ⟨hfull, hcard⟩ := htried.full rfl
    refine meets_ok ⟨T, htried.loaded, fun _ => ⟨hfull, ?_⟩, fun htrue => Bool.noConfusion htrue⟩
    rw [Finset.card_empty] at hcard
    omega
  | true =>
    have habsent : ¬Present (t.entry (L.dir pid) (pdIndex (userStackTop - pageSize))) := by
      rw [htried.others _ (by decide) (by decide)]
      exact hempty _ (by decide) (by decide)
    have hdone := htried.done rfl
    have hsecond : Meets _ (loadUserPage L pid (userStackTop - pageSize) 0 0 t) _ :=
      htried.loaded.loadUserPage_meets hs hfpt hpid (by decide) (by decide) habsent (by decide)
    have hsecond : Meets (Legible L d src n s ∧ Legible L d 0 0 s)
        (loadUserPage L pid (userStackTop - pageSize) 0 0 t) fun r =>
          ∃ T', PageTried (L.dir pid) K (pdIndex (userStackTop - pageSize)) s t T r T' :=
      ⟨hsecond.1, fun hl => hsecond.2 hl.2⟩
    refine hsecond.bind fun r hr => ?_
    obtain ⟨ok, u⟩ := r
    obtain ⟨T', htried'⟩ := hr
    rw [Finset.card_empty] at hdone
    cases ok with
    | false =>
      obtain ⟨hfull, hcard⟩ := htried'.full rfl
      exact meets_ok ⟨T', htried'.loaded, fun _ => ⟨hfull, by omega⟩, fun htrue => Bool.noConfusion htrue⟩
    | true =>
      have hdone' := htried'.done rfl
      exact meets_ok ⟨T', htried'.loaded, fun hfalse => Bool.noConfusion hfalse, fun _ => by omega⟩

end HekaOS.Paging
