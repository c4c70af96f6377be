import HekaOS.Furnish
import HekaOS.VmallocRegions

/-!
# Objects of the chunk pool and their pages

`kmalloc` and `kfree` of an object, together with the page that the pool takes for it or gives back. An
object that goes back before anything else is asked of the pool takes its page with it.
-/

namespace HekaOS.TaskMemory
open MachineWord KernelMemory KernelTriples PageWalk WordBitmap PhysPageFrame AddressMap Vmalloc
open Paging
open Kmalloc (Pool PoolShape PoolInvariant PoolState PoolStep pageOf cacheIndex kcpoolVirtBase kcpoolVirtMax)
open Tasks (maxProc)

variable {L : Layout} {m m' n : MemState} {p q : Pool} {s t u : PagingState} {owner : ℕ → Owner} {live : Finset ℕ}
  {lists : ℕ → List ℕ} {a c cur child d i size fuel : ℕ} {ok : Bool}

/-- No cache of the pool has a chunk left for a request of this size. -/
def Drained (size : ℕ) (p : Pool) : Prop := p.freeList ((cacheIndex p size).getD 0) = 0

instance (size : ℕ) (p : Pool) : Decidable (Drained size p) := inferInstanceAs (Decidable (_ = _))

/-- The page that `kmalloc` takes holds the chunk it returns. -/
theorem kmalloc_page (hs : PoolShape p live lists) (h₁ : 1 ≤ size) (h₂ : size ≤ 256)
    (hok : Kmalloc.kmalloc ok size p = .ok (c, q)) :
    if Drained size p then ok = true ∧ poolGrows size p = true ∧ c = p.vptr + Kmalloc.cpoolHdrSize ∧ pageOf c = p.vptr ∧
      q.vptr = p.vptr + Kmalloc.pageSize ∧ q.mapped = insert p.vptr p.mapped
    else q.vptr = p.vptr ∧ q.mapped = p.mapped := by
  obtain ⟨i, hi, hidx, -⟩ := Kmalloc.cacheIndex_eq hs.sizes h₂
  rw [Kmalloc.kmalloc, if_neg (by omega), if_neg (by omega)] at hok
  unfold Drained poolGrows
  simp only [hidx, Option.getD_some] at hok ⊢
  by_cases hfree : p.freeList i = 0
  · rw [if_pos hfree] at hok ⊢
    obtain ⟨r, hrefill, hok⟩ := bind_eq_ok.mp hok
    obtain ⟨rfl, rfl⟩ : (Kmalloc.popChunk i r).1 = c ∧ (Kmalloc.popChunk i r).2 = q := by
      rw [Except.ok.inj hok]
      exact ⟨rfl, rfl⟩
    have hr := Kmalloc.cpoolRefill_ok hs hi hrefill
    dsimp only [Kmalloc.cpoolRefill] at hrefill
    obtain ⟨hzone, hrefill⟩ := ite_kpanic_eq_ok.mp hrefill
    obtain ⟨hgot, hrefill⟩ := ite_kpanic_eq_ok.mp hrefill
    have hhead : (Kmalloc.popChunk i r).1 = p.vptr + Kmalloc.cpoolHdrSize := by
      rw [← Except.ok.inj hrefill]
      exact Function.update_self _ _ _
    have hmax := hr.zone
    refine ⟨by simpa using hgot, decide_eq_true ⟨hfree, Nat.le_of_not_lt hzone⟩, hhead, ?_, hr.vptr, hr.mapped⟩
    rw [hhead]
    refine Kmalloc.pageOf_eq hs.vptr_aligned (Nat.le_add_right _ _) ?_ ?_
    · exact Nat.add_lt_add_left (by decide) _
    · simp only [Kmalloc.pageSize, Kmalloc.cpoolHdrSize, kcpoolVirtMax, wordSize] at *
      omega
  · rw [if_neg hfree] at hok ⊢
    obtain ⟨rfl, rfl⟩ : (Kmalloc.popChunk i p).1 = c ∧ (Kmalloc.popChunk i p).2 = q := by
      rw [Except.ok.inj hok]
      exact ⟨rfl, rfl⟩
    exact ⟨rfl, rfl⟩

/-- The pool is one that calls of `kmalloc` and `kfree` have left. -/
def Pooled (m : MemState) : Prop := ∃ request, PoolInvariant ⟨m.pool, m.objects, request⟩

theorem Pooled.vptr_page (h : Pooled m) : PoolPage m.pool.vptr := by
  obtain ⟨_, h⟩ := h
  obtain ⟨lists, hs⟩ := h.shape
  exact ⟨hs.vptr_aligned, hs.base_le, hs.vptr_le⟩

theorem Pooled.mapped_page (h : Pooled m) (hb : d ∈ m.pool.mapped) : PoolPage d ∧ d < m.pool.vptr := by
  obtain ⟨_, h⟩ := h
  obtain ⟨lists, hs⟩ := h.shape
  obtain ⟨h₁, h₂, h₃⟩ := hs.page d hb
  have hvptr : m.pool.vptr ≤ kcpoolVirtMax := hs.vptr_le
  have hle : d + Kmalloc.pageSize ≤ m.pool.vptr := h₃
  simp only [Kmalloc.pageSize] at hle
  exact ⟨⟨h₁, h₂, by omega⟩, by omega⟩

theorem Pooled.object_page (h : Pooled m) (ha : a ∈ m.objects) : pageOf a ∈ m.pool.mapped ∧ kcpoolVirtBase < a := by
  have hpage : pageOf a ∈ m.pool.mapped ∧ pageOf a + Kmalloc.cpoolHdrSize ≤ a := by
    obtain ⟨_, h⟩ := h
    obtain ⟨lists, hs⟩ := h.shape
    obtain ⟨hmem, hle, -⟩ := hs.live_bounds ha
    exact ⟨hmem, hle⟩
  have habove := (h.mapped_page hpage.1).1.above
  have hle := hpage.2
  simp only [Kmalloc.cpoolHdrSize] at hle
  exact ⟨hpage.1, by omega⟩

/-- What `kmalloc` has done that returned an object. -/
structure Handed (size a : ℕ) (m n : MemState) : Prop where
  pooled : Pooled n
  fresh : a ∉ m.objects
  objects : n.objects = insert a m.objects
  page : if Drained size m.pool then
      (∃ r, allocPage m.pool.vptr (pagePresent ||| pageRw) m.paging = .ok r ∧ r.1 ≠ 0 ∧ n.paging = r.2) ∧
        a = m.pool.vptr + Kmalloc.cpoolHdrSize ∧ pageOf a = m.pool.vptr ∧ n.pool.vptr = m.pool.vptr + Kmalloc.pageSize ∧
        n.pool.mapped = insert m.pool.vptr m.pool.mapped
    else n.paging = m.paging ∧ n.pool.vptr = m.pool.vptr ∧ n.pool.mapped = m.pool.mapped

theorem kmalloc_handed (h : Pooled m) (h₁ : 1 ≤ size) (h₂ : size ≤ 256) (hok : kmalloc size m = .ok (a, n)) :
    a ≠ 0 ∧ Handed size a m n := by
  obtain ⟨request, h⟩ := h
  have hshape : ∃ lists, PoolShape m.pool m.objects lists := h.shape
  obtain ⟨lists, hs⟩ := hshape
  unfold kmalloc kmallocObject at hok
  obtain ⟨⟨a', vm⟩, hobject, hok⟩ := bind_eq_ok.mp hok
  obtain ⟨r, hr, hobject⟩ := bind_eq_ok.mp hobject
  obtain ⟨⟨c, q⟩, hq, hobject⟩ := bind_eq_ok.mp hobject
  obtain ⟨rfl, rfl⟩ := Prod.mk.inj (Except.ok.inj hobject)
  have hq : Kmalloc.kmalloc (decide (r.1 ≠ 0)) size m.pool = .ok (c, q) := hq
  have ha := Kmalloc.kmalloc_ok hs h₁ h₂ hq
  have hpage := kmalloc_page hs h₁ h₂ hq
  have hpos : c ≠ 0 := by
    obtain ⟨lists', hs'⟩ := ha.shape
    exact (hs'.live_pos (Finset.mem_insert_self _ _)).ne'
  dsimp only at hok
  rw [if_neg hpos] at hok
  obtain ⟨rfl, rfl⟩ := Prod.mk.inj (Except.ok.inj hok)
  have hstep : PoolStep ⟨m.pool, m.objects, request⟩ ⟨q, insert c m.objects, Function.update request c size⟩ :=
    .kmalloc _ h₁ h₂ hq
  refine ⟨hpos, ⟨_, Kmalloc.poolInvariant_step h hstep⟩, ha.fresh, rfl, ?_⟩
  unfold takePoolPage at hr
  split
  · rename_i hdrained
    rw [if_pos hdrained] at hpage
    obtain ⟨hgot, hgrows, hrest⟩ := hpage
    have hgrows : poolGrows size m.vm.pool = true := hgrows
    rw [if_pos hgrows] at hr
    exact ⟨⟨r, hr, of_decide_eq_true hgot, rfl⟩, hrest⟩
  · rename_i hstocked
    rw [if_neg hstocked] at hpage
    have hgrows : ¬poolGrows size m.vm.pool = true := fun hg => hstocked (of_decide_eq_true hg).1
    rw [if_neg hgrows] at hr
    obtain rfl := Except.ok.inj hr
    exact ⟨rfl, hpage⟩

/-- What `kfree` has done to an object. -/
structure Returned (a : ℕ) (m n : MemState) : Prop where
  pooled : Pooled n
  objects : n.objects = m.objects.erase a
  vptr : n.pool.vptr = m.pool.vptr
  page : if ∃ d ∈ m.objects.erase a, pageOf d = pageOf a then n.paging = m.paging ∧ n.pool.mapped = m.pool.mapped
    else freePage (pageOf a) m.paging = .ok n.paging ∧ n.pool.mapped = m.pool.mapped.erase (pageOf a)

/-- `kfree` of an object ends if the page does, in one way whatever the fuel. -/
theorem kfree_returned (h : Pooled m) (ha : a ∈ m.objects) (hfree : ∃ t, freePage (pageOf a) m.paging = .ok t) :
    ∃ n, Returned a m n ∧ (∀ fuel n', kfree fuel a m = .ok n' → n' = n) ∧
      ∃ bound, ∀ fuel, bound ≤ fuel → kfree fuel a m = .ok n := by
  obtain ⟨request, h⟩ := h
  have hshape : ∃ lists, PoolShape m.pool m.objects lists := h.shape
  obtain ⟨lists, hs⟩ := hshape
  obtain ⟨q, hf, huniq, bound, hbound⟩ := Kmalloc.kfree_eq hs ha
  have hin : pageOf a ∈ m.pool.mapped := (hs.mem_live ha).1
  have hstep : PoolInvariant ⟨q, m.objects.erase a, request⟩ :=
    Kmalloc.poolInvariant_step h (.kfree bound ha (hbound bound le_rfl))
  have hbusy : pageOf a ∈ q.mapped ↔ ∃ d ∈ m.objects.erase a, pageOf d = pageOf a := by
    refine ⟨hf.busy, ?_⟩
    rintro ⟨d, hd, hpage⟩
    obtain ⟨lists', hs'⟩ := hf.shape
    rw [← hpage]
    exact (hs'.mem_live hd).1
  -- the other pages have objects that are still there
  have hothers : ∀ b ∈ m.pool.mapped, b ≠ pageOf a → b ∈ q.mapped := by
    intro b hb hne
    obtain ⟨d, hd, rfl⟩ := h.busy b hb
    obtain ⟨lists', hs'⟩ := hf.shape
    refine (hs'.mem_live (Finset.mem_erase.mpr ⟨fun he => hne (by rw [he]), hd⟩)).1
  obtain ⟨pg, hpg, hpage⟩ : ∃ pg, dropPoolPage a q m.vm = .ok pg ∧
      if ∃ d ∈ m.objects.erase a, pageOf d = pageOf a then pg = m.paging ∧ q.mapped = m.pool.mapped
      else freePage (pageOf a) m.paging = .ok pg ∧ q.mapped = m.pool.mapped.erase (pageOf a) := by
    have hin' : pageOf a ∈ m.vm.pool.mapped := hin
    unfold dropPoolPage
    by_cases hkeep : ∃ d ∈ m.objects.erase a, pageOf d = pageOf a
    · simp only [if_pos hkeep]
      rw [if_neg fun hc => hc.2 (hbusy.mpr hkeep)]
      refine ⟨_, rfl, rfl, Finset.Subset.antisymm hf.mapped fun b hb => ?_⟩
      by_cases hne : b = pageOf a
      · rw [hne]
        exact hbusy.mpr hkeep
      · exact hothers b hb hne
    · simp only [if_neg hkeep]
      rw [if_pos ⟨hin', mt hbusy.mp hkeep⟩]
      obtain ⟨pg, hpg⟩ := hfree
      refine ⟨pg, hpg, hpg, ?_⟩
      ext b
      rw [Finset.mem_erase]
      constructor
      · intro hb
        refine ⟨?_, hf.mapped hb⟩
        rintro rfl
        exact hkeep (hbusy.mp hb)
      · rintro ⟨hne, hb⟩
        exact hothers b hb hne
  refine ⟨⟨{ m.vm with pool := q, paging := pg }, m.objects.erase a⟩, ⟨⟨request, hstep⟩, rfl, hf.vptr, hpage⟩,
    fun fuel n' hn => ?_, bound, fun fuel hfuel => ?_⟩
  · unfold kfree kfreeObject at hn
    obtain ⟨vm, hvm, hn⟩ := bind_eq_ok.mp hn
    obtain ⟨q', hq', hvm⟩ := bind_eq_ok.mp hvm
    obtain rfl := huniq fuel q' hq'
    obtain ⟨pg', hpg', hvm⟩ := bind_eq_ok.mp hvm
    obtain rfl := Except.ok.inj (hpg.symm.trans hpg')
    obtain rfl := Except.ok.inj hvm
    exact (Except.ok.inj hn).symm
  · have hq : Kmalloc.kfree fuel a m.vm.pool = .ok q := hbound fuel hfuel
    unfold kfree kfreeObject
    rw [hq, ok_bind, hpg]
    rfl

end HekaOS.TaskMemory
