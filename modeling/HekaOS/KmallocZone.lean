import HekaOS.KmallocInvariant

/-!
# The zone of the chunk pool

`cpool_vptr` only moves upwards: a page that `kfree` has unmapped is never mapped again, so the
zone is used up by the number of pages ever taken, however few of them are mapped. The bound
check of `cpool_refill` also spares the last page of the zone.
-/

namespace HekaOS.Kmalloc
open MachineWord KernelMemory PointerChain

variable {s t : PoolState} {p q : Pool} {live : Finset ℕ} {lists : ℕ → List ℕ} {i n size taken : ℕ}

/-- The pages of `[KCPOOL_VIRT_BASE, KCPOOL_VIRT_MAX]`. -/
def zonePages : ℕ := (kcpoolVirtMax + 1 - kcpoolVirtBase) / pageSize

/-- Histories in which the mapped pages never fill the zone, with the number of pages the pool
has taken in all. -/
inductive PoolRun : PoolState → ℕ → Prop where
  | init {s : PoolState} {mem : ℕ → ℕ} (hlive : s.live = ∅) (hpool : s.pool = kmallocInit mem) : PoolRun s 0
  | step {s t : PoolState} {taken : ℕ} (hs : PoolRun s taken) (h : PoolStep s t)
      (hroom : t.pool.mapped.card < zonePages) : PoolRun t (taken + (t.pool.mapped \ s.pool.mapped).card)

/-- The bump pointer counts the pages. -/
structure Bumped (s : PoolState) (taken : ℕ) : Prop where
  inv : PoolInvariant s
  vptr : s.pool.vptr = kcpoolVirtBase + taken * pageSize

theorem Bumped.of_subset (h : Bumped s taken) (hinv : PoolInvariant t) (hvptr : t.pool.vptr = s.pool.vptr)
    (hsub : t.pool.mapped ⊆ s.pool.mapped) : Bumped t (taken + (t.pool.mapped \ s.pool.mapped).card) := by
  have hnone : t.pool.mapped \ s.pool.mapped = ∅ := Finset.sdiff_eq_empty_iff_subset.mpr hsub
  rw [hnone, Finset.card_empty, add_zero]
  exact ⟨hinv, hvptr.trans h.vptr⟩

theorem PoolRun.bumped (h : PoolRun s taken) : Bumped s taken := by
  induction h with
  | init hlive hpool =>
    refine ⟨poolInvariant_init hlive hpool, ?_⟩
    rw [hpool, zero_mul]
    rfl
  | step hs hstep hroom ih =>
    have hinv := poolInvariant_step ih.inv hstep
    obtain ⟨lists, hshape⟩ := ih.inv.shape
    cases hstep with
    | kmalloc allocPage h₁ h₂ hok =>
      rcases (kmalloc_ok hshape h₁ h₂ hok).vptr with ⟨hvptr, hmapped⟩ | ⟨hvptr, hmapped⟩
      · exact ih.of_subset hinv hvptr hmapped.subset
      · refine ⟨hinv, ?_⟩
        dsimp only
        rw [hvptr, hmapped, Finset.insert_sdiff_of_notMem, Finset.sdiff_self, ih.vptr]
        · simp only [insert_empty_eq, Finset.card_singleton]
          ring
        · intro hb
          have hle := (hshape.page _ hb).2.2
          simp only [pageSize] at hle
          omega
    | kfree fuel hc hok =>
      obtain ⟨r, hf, huniq, -⟩ := kfree_eq hshape hc
      obtain rfl := huniq fuel _ hok
      exact ih.of_subset hinv hf.vptr hf.mapped
    | write v hc ha ha' => exact ih.of_subset hinv rfl (Finset.Subset.refl _)

/-- The panic of `cpool_refill` on a used up zone. -/
def zoneExhausted {α : Type} : Kernel α := kpanic "kmalloc: chunk pool zone exhausted"

theorem cpoolRefill_zone : cpoolRefill true i p = zoneExhausted ↔ add32 p.vptr pageSize > kcpoolVirtMax := by
  unfold cpoolRefill
  split
  · rename_i hzone
    exact ⟨fun _ => hzone, fun _ => rfl⟩
  · rename_i hzone
    constructor
    · intro h
      exact nomatch h
    · intro h
      exact absurd h hzone

theorem kmalloc_zone (h₁ : 1 ≤ size) (h₂ : size ≤ 256) (hi : cacheIndex p size = some i) :
    kmalloc true size p = zoneExhausted ↔ p.freeList i = 0 ∧ add32 p.vptr pageSize > kcpoolVirtMax := by
  rw [kmalloc, if_neg (by omega), if_neg (by omega)]
  simp only [hi, Option.getD_some]
  rw [← cpoolRefill_zone (i := i)]
  split
  · rename_i hfree
    cases hrefill : cpoolRefill true i p with
    | error e =>
      constructor
      · intro h
        exact ⟨hfree, congrArg Except.error (Except.error.inj h)⟩
      · rintro ⟨-, h⟩
        exact congrArg Except.error (Except.error.inj h)
    | ok q =>
      constructor
      · intro h
        cases h
      · rintro ⟨-, h⟩
        cases h
  · rename_i hfree
    constructor
    · intro h
      cases h
    · rintro ⟨h, -⟩
      exact absurd h hfree

theorem Bumped.zone (h : Bumped s taken) :
    add32 s.pool.vptr pageSize > kcpoolVirtMax ↔ zonePages - 1 ≤ taken := by
  obtain ⟨lists, hshape⟩ := h.inv.shape
  have hle := hshape.vptr_le
  have hvptr := h.vptr
  rw [add32_of_lt]
  · simp only [kcpoolVirtMax, kcpoolVirtBase, pageSize, zonePages] at *
    omega
  · simp only [kcpoolVirtMax, pageSize, wordSize] at *
    omega

theorem pool_zone_not_exhausted (s : PoolState) (taken size : ℕ) (h : PoolRun s taken) (h₁ : 1 ≤ size)
    (h₂ : size ≤ 256) :
    kmalloc true size s.pool ≠ zoneExhausted ↔
      (taken < zonePages - 1 ∨ ∃ i, cacheIndex s.pool size = some i ∧ s.pool.freeList i ≠ 0) := by
  have hb := h.bumped
  obtain ⟨lists, hshape⟩ := hb.inv.shape
  obtain ⟨i, -, hi, -⟩ := cacheIndex_eq hshape.sizes h₂
  rw [ne_eq, kmalloc_zone h₁ h₂ hi, hb.zone, not_and_or, hi, or_comm, Nat.not_le]
  simp only [Option.some.injEq, exists_eq_left', ne_eq]

/-- A `kmalloc` on an empty pool maps a page and leaves one live chunk. -/
theorem PoolRun.take (h : PoolRun s taken) (hlive : s.live = ∅) (hroom : taken < zonePages - 1) :
    ∃ t c, PoolRun t (taken + 1) ∧ t.live = {c} ∧ t.pool.mapped.card = 1 := by
  have hb := h.bumped
  obtain ⟨lists, hshape⟩ := hb.inv.shape
  have hmapped : s.pool.mapped = ∅ := by
    apply Finset.eq_empty_of_forall_notMem
    intro b hb'
    obtain ⟨c, hc, -⟩ := hb.inv.busy b hb'
    rw [hlive] at hc
    exact absurd hc (Finset.notMem_empty c)
  obtain ⟨i, hi, hidx, -⟩ := cacheIndex_eq hshape.sizes (by decide : 8 ≤ 256)
  have hnil : lists i = [] := by
    apply List.eq_nil_iff_forall_not_mem.mpr
    intro c hc
    obtain ⟨b, hb', -⟩ := (hshape.listed i hi c).mp hc
    rw [hmapped] at hb'
    exact absurd hb' (Finset.notMem_empty b)
  have hfree : s.pool.freeList i = 0 := by
    have hchain := hshape.chain i hi
    rw [hnil] at hchain
    exact ptr_eq_none.mp hchain
  obtain ⟨q, hrefill⟩ : ∃ q, cpoolRefill true i s.pool = .ok q := by
    have hzone : ¬add32 s.pool.vptr pageSize > kcpoolVirtMax := fun hz => by
      have hle := hb.zone.mp hz
      omega
    unfold cpoolRefill
    rw [if_neg hzone]
    exact ⟨_, rfl⟩
  have hok : kmalloc true 8 s.pool = .ok (popChunk i q) := by
    simp only [kmalloc, hidx, Option.getD_some, hfree, hrefill]
    rfl
  have hr := cpoolRefill_ok hshape hi hrefill
  have hmapped' : (popChunk i q).2.mapped = {s.pool.vptr} := by
    change q.mapped = _
    rw [hr.mapped, hmapped]
    rfl
  generalize popChunk i q = r at hok hmapped'
  obtain ⟨c, v⟩ := r
  change v.mapped = {s.pool.vptr} at hmapped'
  have hstep := PoolStep.kmalloc true (by decide : 1 ≤ 8) (by decide) hok
  rw [hlive] at hstep
  have hcard : v.mapped.card = 1 := by rw [hmapped', Finset.card_singleton]
  have hrun := h.step hstep (by rw [hcard]; decide)
  rw [hmapped, Finset.sdiff_empty, hcard] at hrun
  exact ⟨_, c, hrun, insert_empty_eq c, hcard⟩

/-- One round of `kmalloc` and `kfree` on an empty pool takes a page for good. -/
theorem PoolRun.churn (h : PoolRun s taken) (hlive : s.live = ∅) (hroom : taken < zonePages - 1) :
    ∃ t, PoolRun t (taken + 1) ∧ t.live = ∅ := by
  obtain ⟨t, c, hrun, hlive', hcard⟩ := h.take hlive hroom
  obtain ⟨lists, hshape⟩ := hrun.bumped.inv.shape
  have hc : c ∈ t.live := hlive' ▸ Finset.mem_singleton_self c
  obtain ⟨w, hf, -, fuel, hfreed⟩ := kfree_eq hshape hc
  have hrun' := hrun.step (.kfree fuel hc (hfreed fuel (le_refl fuel)))
    (lt_of_le_of_lt (Finset.card_le_card hf.mapped) (by rw [hcard]; decide))
  have hnone : w.mapped \ t.pool.mapped = ∅ := Finset.sdiff_eq_empty_iff_subset.mpr hf.mapped
  rw [hnone, Finset.card_empty, add_zero] at hrun'
  refine ⟨_, hrun', ?_⟩
  rw [hlive']
  exact Finset.erase_singleton c

theorem pool_churned (hn : n ≤ zonePages - 1) : ∃ s, PoolRun s n ∧ s.live = ∅ := by
  induction n with
  | zero => exact ⟨⟨kmallocInit fun _ => 0, ∅, fun _ => 0⟩, .init rfl rfl, rfl⟩
  | succ n ih =>
    obtain ⟨s, hs, hlive⟩ := ih (Nat.le_of_succ_le hn)
    exact hs.churn hlive hn

/-- 126975 rounds of `kmalloc` and `kfree` with at most one page mapped use up the zone. -/
theorem pool_zone_not_exhausted_fails : ¬∀ (s : PoolState) (taken size : ℕ), PoolRun s taken → 1 ≤ size →
    size ≤ 256 → kmalloc true size s.pool ≠ zoneExhausted := by
  intro hall
  obtain ⟨s, hs, hlive⟩ := pool_churned (le_refl (zonePages - 1))
  have hb := hs.bumped
  obtain ⟨lists, hshape⟩ := hb.inv.shape
  obtain ⟨i, hi, hidx, -⟩ := cacheIndex_eq hshape.sizes (by decide : 8 ≤ 256)
  refine hall s _ 8 hs (by decide) (by decide) ((kmalloc_zone (by decide) (by decide) hidx).mpr ⟨?_, ?_⟩)
  · by_contra hfree
    have hchain := hshape.chain i hi
    rw [ptr_of_pos (Nat.pos_of_ne_zero hfree)] at hchain
    obtain ⟨b, hb', -⟩ := (hshape.listed i hi _).mp (hchain.mem_of_head rfl)
    obtain ⟨c, hc, -⟩ := hb.inv.busy b hb'
    rw [hlive] at hc
    exact absurd hc (Finset.notMem_empty c)
  · exact hb.zone.mpr (le_refl _)

/-- One request more after 126973 rounds of `kmalloc` and `kfree` and a `kmalloc` whose chunk is kept. -/
theorem pool_zone_not_exhausted_churned : ∃ s, PoolRun s (zonePages - 2) ∧ s.live ≠ ∅ ∧ s.pool.mapped ≠ ∅ ∧
    kmalloc true 100 s.pool ≠ zoneExhausted := by
  obtain ⟨s, hs, hlive⟩ := pool_churned (by decide : zonePages - 3 ≤ zonePages - 1)
  obtain ⟨t, c, ht, hlive', hcard⟩ := hs.take hlive (by decide)
  refine ⟨t, ht, ?_, ?_, (pool_zone_not_exhausted t _ 100 ht (by decide) (by decide)).mpr (.inl (by decide))⟩
  · rw [hlive']
    exact Finset.singleton_ne_empty c
  · exact Finset.card_ne_zero.mp (hcard ▸ one_ne_zero) |>.ne_empty

end HekaOS.Kmalloc
