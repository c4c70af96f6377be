import HekaOS.PagingOps

/-!
# Owners of physical frames

A ledger that assigns to each frame what it serves as: a page table at an index of a directory
(for the kernel half no directory in particular, since its tables are shared), or the page behind
an entry of a page table. The entries of the tables point only at frames that are entered for
them (`Owned`), so that no frame serves twice, and only frames that are marked in the bitmap are
entered at all.
-/

namespace HekaOS.Paging
open MachineWord KernelMemory KernelTriples ByteMemory PageWalk WordBitmap PhysPageFrame AddressMap
open Tasks (maxProc pageSize)

/-- What a frame serves as. -/
inductive Owner where
  | free
  | table (i pid : ℕ)
  | page (K j : ℕ)
  deriving DecidableEq

/-- The owner of a page table that `page_directories[pid]` has at index `i`. -/
def tableOf (pid i : ℕ) : Owner := .table i (if i < 768 then pid else 0)

theorem tableOf_kernel {pid pid' i : ℕ} (hi : 768 ≤ i) : tableOf pid i = tableOf pid' i := by
  unfold tableOf
  rw [if_neg (Nat.not_lt.mpr hi), if_neg (Nat.not_lt.mpr hi)]

/-- The two pages that `paging.c` mounts foreign frames on. -/
def ScratchVa (va : ℕ) : Prop := va = forkScratchPtVa ∨ va = forkScratchDataVa

/-- The entries of the scratch pages in a page table at index `i`. -/
def Scratch (i j : ℕ) : Prop := ∃ va, ScratchVa va ∧ pdIndex va = i ∧ ptIndex va = j

theorem scratch_iff {i j : ℕ} : Scratch i j ↔ i = kstackPdeIndex ∧ (j = 512 ∨ j = 513) := by
  constructor
  · rintro ⟨va, rfl | rfl, rfl, rfl⟩
    · exact ⟨rfl, .inl rfl⟩
    · exact ⟨rfl, .inr rfl⟩
  · rintro ⟨rfl, rfl | rfl⟩
    · exact ⟨forkScratchPtVa, .inl rfl, rfl, rfl⟩
    · exact ⟨forkScratchDataVa, .inr rfl, rfl, rfl⟩

variable {L : Layout} {s t : PagingState} {bm bm' : Bitmap} {owner : ℕ → Owner} {o : Owner}
  {e e' : ℕ → ℕ → ℕ} {f g i j K pid v va flags : ℕ}

/-- A present entry `i` of `page_directories[pid]` may name the frame. -/
structure Leads (L : Layout) (owner : ℕ → Owner) (pid i f : ℕ) : Prop where
  first : i = 0 → f = L.fptFrame
  self : i = 1023 → f = L.dir pid
  table : 0 < i → i < 1023 → owner f = tableOf pid i

/-- The ledger covers the tables whose entries are `e`. -/
structure Owned (L : Layout) (e : ℕ → ℕ → ℕ) (bm : Bitmap) (owner : ℕ → Owner) : Prop where
  used : ∀ f, owner f ≠ .free → reservedFrames ≤ f ∧ f < physTotalFrames ∧ bitmapTest bm f = true
  reserved : ∀ f < reservedFrames, bitmapTest bm f = true
  fpt : ∀ j < 1024, e L.fptFrame j / 4096 < reservedFrames
  pde : ∀ pid < maxProc, ∀ i < 1024, Present (e (L.dir pid) i) → Leads L owner pid i (e (L.dir pid) i / 4096)
  pte : ∀ K i pid, owner K = .table i pid → ∀ j < 1024, ¬Scratch i j → Present (e K j) →
    owner (e K j / 4096) = .page K j

theorem dir_lt (hpid : pid < maxProc) : L.dir pid < reservedFrames :=
  lt_of_lt_of_le (Nat.add_lt_add_left hpid _) L.dir_low

theorem dir_ne_fpt (hpid : pid < maxProc) : L.dir pid ≠ L.fptFrame := by
  have hapart := L.apart
  unfold Layout.dir
  omega

theorem dir_inj {pid' : ℕ} (h : L.dir pid = L.dir pid') : pid = pid' := Nat.add_left_cancel h

namespace Owned

theorem table_ne_free (h : owner f = .table i pid) : owner f ≠ .free := by
  intro he
  cases h.symm.trans he

theorem page_ne_free (h : owner f = .page K j) : owner f ≠ .free := by
  intro he
  cases h.symm.trans he

theorem low (h : Owned L e bm owner) (hf : f < reservedFrames) : owner f = .free := by
  by_contra hne
  exact absurd hf (Nat.not_lt.mpr (h.used f hne).1)

theorem clear (h : Owned L e bm owner) (hf : bitmapTest bm f = false) : owner f = .free := by
  by_contra hne
  exact nomatch hf.symm.trans (h.used f hne).2.2

theorem ne_dir (h : Owned L e bm owner) (hf : owner f ≠ .free) (hpid : pid < maxProc) : f ≠ L.dir pid := by
  rintro rfl
  exact hf (h.low (dir_lt hpid))

theorem ne_fpt (h : Owned L e bm owner) (hf : owner f ≠ .free) : f ≠ L.fptFrame := by
  rintro rfl
  exact hf (h.low L.fpt_low)

theorem newFrame_ge (h : Owned L e bm owner) (hg : NewFrame bm g) : reservedFrames ≤ g := by
  by_contra hlt
  exact nomatch hg.clear.symm.trans (h.reserved g (Nat.not_le.mp hlt))

/-- An entry changes, to one the ledger allows for. -/
theorem edit (h : Owned L e bm owner)
    (hsame : ∀ f' j', j' < 1024 → ¬(f' = f ∧ j' = j) → e' f' j' = e f' j') (hf : f ≠ L.fptFrame)
    (hpde : ∀ pid < maxProc, f = L.dir pid → Present (e' f j) → Leads L owner pid j (e' f j / 4096))
    (hpte : ∀ i pid, owner f = .table i pid → ¬Scratch i j → Present (e' f j) →
      owner (e' f j / 4096) = .page f j) : Owned L e' bm owner := by
  refine ⟨h.used, h.reserved, fun k hk => ?_, fun pid hpid i hi hpresent => ?_,
    fun K i pid hK k hk hscratch hpresent => ?_⟩
  · rw [hsame _ k hk fun he => hf he.1.symm]
    exact h.fpt k hk
  · by_cases hat : L.dir pid = f ∧ i = j
    · rw [hat.1, hat.2] at hpresent ⊢
      exact hpde pid hpid hat.1.symm hpresent
    · rw [hsame _ i hi hat] at hpresent ⊢
      exact h.pde pid hpid i hi hpresent
  · by_cases hat : K = f ∧ k = j
    · rw [hat.1, hat.2] at hpresent ⊢
      exact hpte i pid (hat.1 ▸ hK) (hat.2 ▸ hscratch) hpresent
    · rw [hsame _ k hk hat] at hpresent ⊢
      exact h.pte K i pid hK k hk hscratch hpresent

/-- The ledger says nothing of what a frame holds that serves as no table. -/
theorem within (h : Owned L s.entry bm owner) (hw : Within g s t) (hlow : reservedFrames ≤ g)
    (hg : ∀ i pid, owner g ≠ .table i pid) : Owned L t.entry bm owner := by
  have hdir : ∀ pid < maxProc, L.dir pid ≠ g := fun pid hpid he =>
    absurd (dir_lt (L := L) hpid) (Nat.not_lt.mpr (he ▸ hlow))
  have hfpt : L.fptFrame ≠ g := fun he => absurd L.fpt_low (Nat.not_lt.mpr (he ▸ hlow))
  refine ⟨h.used, h.reserved, fun k hk => ?_, fun pid hpid i hi hpresent => ?_,
    fun K i pid hK k hk hscratch hpresent => ?_⟩
  · rw [hw.entry hfpt hk]
    exact h.fpt k hk
  · rw [hw.entry (hdir pid hpid) hi] at hpresent ⊢
    exact h.pde pid hpid i hi hpresent
  · have hne : K ≠ g := by
      rintro rfl
      exact hg i pid hK
    rw [hw.entry hne hk] at hpresent ⊢
    exact h.pte K i pid hK k hk hscratch hpresent

/-- An entry of a page table is set to a page that is entered for it. -/
theorem setPte (h : Owned L s.entry bm owner) (hf : owner f = .table i pid) (hj : j < 1024)
    (hv : v < wordSize) (hpage : ¬Scratch i j → Present v → owner (v / 4096) = .page f j) :
    Owned L (s.setEntry f j v).entry bm owner := by
  have hfree := table_ne_free hf
  have hself := PagingState.entry_setEntry_self (s := s) (f := f) (j := j) hv
  apply h.edit (f := f) (j := j)
  · intro f' j' hj' hne
    exact PagingState.entry_setEntry_of_ne hj hj' hne
  · exact h.ne_fpt hfree
  · intro pid hpid he
    exact absurd he (h.ne_dir hfree hpid)
  · intro i' pid' hf' hns hpresent
    obtain ⟨rfl, -⟩ := Owner.table.inj (hf.symm.trans hf')
    rw [hself] at hpresent ⊢
    exact hpage hns hpresent

theorem setPde (h : Owned L s.entry bm owner) (hpid : pid < maxProc) (hi : i < 1024) (hv : v < wordSize)
    (hleads : Present v → Leads L owner pid i (v / 4096)) :
    Owned L (s.setEntry (L.dir pid) i v).entry bm owner := by
  have hself := PagingState.entry_setEntry_self (s := s) (f := L.dir pid) (j := i) hv
  apply h.edit (f := L.dir pid) (j := i)
  · intro f' j' hj' hne
    exact PagingState.entry_setEntry_of_ne hi hj' hne
  · exact dir_ne_fpt hpid
  · intro pid' hpid' he hpresent
    obtain rfl := dir_inj he
    rw [hself] at hpresent ⊢
    exact hleads hpresent
  · intro i' pid' ho
    rw [h.low (dir_lt hpid)] at ho
    exact nomatch ho

theorem mark (h : Owned L e bm owner) (g : ℕ) : Owned L e (bitmapSet bm g) owner := by
  have hmark : ∀ f, bitmapTest bm f = true → bitmapTest (bitmapSet bm g) f = true := by
    intro f hf
    rw [bitmapTest_set, hf]
    rfl
  refine ⟨fun f hf => ?_, fun f hf => hmark f (h.reserved f hf), h.fpt, h.pde, h.pte⟩
  obtain ⟨h₁, h₂, h₃⟩ := h.used f hf
  exact ⟨h₁, h₂, hmark f h₃⟩

/-- A frame that serves as nothing may go back to the allocator. -/
theorem release (h : Owned L e bm owner) (hg : owner g = .free) :
    Owned L e (physFreeFrame (g * 4096) bm) owner := by
  by_cases hrange : reservedFrames ≤ g ∧ g < physTotalFrames
  · have hfree : physFreeFrame (g * 4096) bm = bitmapClear bm g := physFreeFrame_eq hrange.1 hrange.2
    have hkeep : ∀ f, f ≠ g → bitmapTest (bitmapClear bm g) f = bitmapTest bm f := by
      intro f hf
      rw [bitmapTest_clear, decide_eq_false hf]
      simp
    rw [hfree]
    refine ⟨fun f hf => ?_, fun f hf => ?_, h.fpt, h.pde, h.pte⟩
    · have hne : f ≠ g := by
        rintro rfl
        exact hf hg
      rw [hkeep f hne]
      exact h.used f hf
    · rw [hkeep f (by omega)]
      exact h.reserved f hf
  · have hguard : physFreeFrame (g * 4096) bm = bm := by
      unfold physFreeFrame
      have hdiv : g * 4096 / physFrameSize = g := mul_frame_div g
      split
      · rfl
      · dsimp only
        rw [hdiv, if_pos (by omega)]
    rw [hguard]
    exact h

/-- A frame that served as nothing is entered; a table is entered when it is empty. -/
theorem enter (h : Owned L e bm owner) (hfree : owner g = .free) (hlow : reservedFrames ≤ g)
    (hlt : g < physTotalFrames) (hused : bitmapTest bm g = true)
    (hempty : ∀ i pid, o = .table i pid → ∀ j < 1024, ¬Present (e g j)) :
    Owned L e bm (Function.update owner g o) := by
  have hkeep : ∀ f, owner f ≠ .free → Function.update owner g o f = owner f := by
    intro f hf
    refine Function.update_of_ne ?_ _ _
    rintro rfl
    exact hf hfree
  refine ⟨fun f hf => ?_, h.reserved, h.fpt, fun pid hpid i hi hpresent => ?_,
    fun K i pid hK j hj hscratch hpresent => ?_⟩
  · by_cases hfg : f = g
    · subst hfg
      exact ⟨hlow, hlt, hused⟩
    · rw [Function.update_of_ne hfg] at hf
      exact h.used f hf
  · have hleads := h.pde pid hpid i hi hpresent
    refine ⟨hleads.first, hleads.self, fun h₁ h₂ => ?_⟩
    have htable := hleads.table h₁ h₂
    rw [hkeep _ (table_ne_free htable)]
    exact htable
  · by_cases hKg : K = g
    · subst hKg
      rw [Function.update_self] at hK
      exact absurd hpresent (hempty i pid hK j hj)
    · rw [Function.update_of_ne hKg] at hK
      have hpage := h.pte K i pid hK j hj hscratch hpresent
      rw [hkeep _ (page_ne_free hpage)]
      exact hpage

/-- A page whose entry is cleared serves as nothing any more. -/
theorem dropPage (h : Owned L e bm owner) (hg : owner g = .page K j) (hclear : ¬Present (e K j)) :
    Owned L e bm (Function.update owner g .free) := by
  refine ⟨fun f hf => ?_, h.reserved, h.fpt, fun pid hpid i hi hpresent => ?_,
    fun K' i pid hK' j' hj' hscratch hpresent => ?_⟩
  · by_cases hfg : f = g
    · subst hfg
      exact absurd (Function.update_self _ _ _) hf
    · rw [Function.update_of_ne hfg] at hf
      exact h.used f hf
  · have hleads := h.pde pid hpid i hi hpresent
    refine ⟨hleads.first, hleads.self, fun h₁ h₂ => ?_⟩
    have htable := hleads.table h₁ h₂
    have hne : e (L.dir pid) i / 4096 ≠ g := by
      intro he
      rw [he, hg] at htable
      exact nomatch htable
    rw [Function.update_of_ne hne]
    exact htable
  · have hK'g : K' ≠ g := by
      rintro rfl
      rw [Function.update_self] at hK'
      exact nomatch hK'
    rw [Function.update_of_ne hK'g] at hK'
    have hpage := h.pte K' i pid hK' j' hj' hscratch hpresent
    have hne : e K' j' / 4096 ≠ g := by
      intro he
      rw [he, hg] at hpage
      obtain ⟨rfl, rfl⟩ := Owner.page.inj hpage
      exact hclear hpresent
    rw [Function.update_of_ne hne]
    exact hpage

/-- The ledger without a table and its pages. -/
def without (owner : ℕ → Owner) (K f : ℕ) : Owner :=
  if f = K then .free
  else match owner f with
    | .page K' j => if K' = K then .free else .page K' j
    | o => o

theorem without_self : without owner K K = .free := if_pos rfl

theorem without_page (h : owner f = .page K j) : without owner K f = .free := by
  unfold without
  split
  · rfl
  · rw [h]
    exact if_pos rfl

theorem without_table (hf : f ≠ K) (h : owner f = .table i pid) : without owner K f = .table i pid := by
  unfold without
  rw [if_neg hf, h]

theorem without_page_of_ne {K' : ℕ} (hf : f ≠ K) (hK' : K' ≠ K) (h : owner f = .page K' j) :
    without owner K f = .page K' j := by
  unfold without
  rw [if_neg hf, h]
  exact if_neg hK'

theorem of_without (h : without owner K f = .table i pid) : f ≠ K ∧ owner f = .table i pid := by
  unfold without at h
  split at h
  · exact nomatch h
  · rename_i hne
    refine ⟨hne, ?_⟩
    cases ho : owner f with
    | free =>
      rw [ho] at h
      exact nomatch h
    | table i' pid' =>
      rw [ho] at h
      exact h
    | page K' j =>
      rw [ho] at h
      dsimp only at h
      split at h
      · exact nomatch h
      · exact nomatch h

/-- A table that no directory leads to serves as nothing any more, nor do its pages. -/
theorem dropTable (h : Owned L e bm owner) (hK : owner K = .table i pid)
    (hunref : ∀ pid < maxProc, ∀ i < 1024, Present (e (L.dir pid) i) → e (L.dir pid) i / 4096 ≠ K) :
    Owned L e bm (without owner K) := by
  refine ⟨fun f hf => ?_, h.reserved, h.fpt, fun pid hpid i hi hpresent => ?_,
    fun K' i pid hK' j hj hscratch hpresent => ?_⟩
  · refine h.used f fun hfree => hf ?_
    unfold without
    rw [hfree]
    exact ite_self _
  · have hleads := h.pde pid hpid i hi hpresent
    refine ⟨hleads.first, hleads.self, fun h₁ h₂ => ?_⟩
    exact without_table (hunref pid hpid i hi hpresent) (hleads.table h₁ h₂)
  · obtain ⟨hne, hK'⟩ := of_without hK'
    have hpage := h.pte K' i pid hK' j hj hscratch hpresent
    have hneK : e K' j / 4096 ≠ K := by
      intro he
      rw [he, hK] at hpage
      exact nomatch hpage
    exact without_page_of_ne hneK hne hpage

end Owned

end HekaOS.Paging
