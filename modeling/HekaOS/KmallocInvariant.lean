import Mathlib.Order.Bounds.Basic
import HekaOS.KmallocShape
import HekaOS.TransitionSystem

/-!
# The chunk pool over whole histories

Histories of `kmalloc` and `kfree` with the chunks handed out and the sizes they were
requested for, and what holds after each of them.
-/

namespace HekaOS.Kmalloc
open MachineWord KernelMemory PointerChain TransitionSystem

variable {p q : Pool} {live : Finset ℕ} {lists : ℕ → List ℕ} {a b c i j v size fuel : ℕ} {ok : Bool}

theorem cacheSizes_mono (hj : j < kmemCacheCount) (hij : i ≤ j) : cacheSizes i ≤ cacheSizes j := by
  unfold kmemCacheCount at hj
  interval_cases j <;> interval_cases i <;> decide

/-- The cache that `kmalloc` chooses has the smallest chunks that are large enough. -/
theorem cacheIndex_eq (hsizes : p.objSize = cacheSizes) (hsize : size ≤ 256) :
    ∃ i < kmemCacheCount, cacheIndex p size = some i ∧
      IsLeast {n | size ≤ n ∧ ∃ j < kmemCacheCount, n = cacheSizes j} (cacheSizes i) := by
  have hsome : (cacheIndex p size).isSome := by
    rw [cacheIndex, List.find?_isSome]
    exact ⟨5, by decide, by simpa [hsizes, cacheSizes] using hsize⟩
  obtain ⟨i, hi⟩ := Option.isSome_iff_exists.mp hsome
  obtain ⟨hle, hlt, hmin⟩ := List.find?_range_eq_some.mp hi
  have hlt := List.mem_range.mp hlt
  rw [hsizes] at hle hmin
  refine ⟨i, hlt, hi, ⟨of_decide_eq_true hle, i, hlt, rfl⟩, ?_⟩
  rintro n ⟨hn, j, hj, rfl⟩
  by_contra hcon
  have hji : j < i := by
    by_contra hij
    exact hcon (cacheSizes_mono hj (Nat.le_of_not_lt hij))
  have := hmin j hji
  simp only [Bool.not_eq_eq_eq_not, Bool.not_true, decide_eq_false_iff_not] at this
  exact this hn

theorem cacheIndexExact_eq (hsizes : p.objSize = cacheSizes) (hi : i < kmemCacheCount) :
    cacheIndexExact p (cacheSizes i) = .ok i := by
  have hfind : (List.range kmemCacheCount).find? (fun k => decide (p.objSize k = cacheSizes i)) =
      some i := by
    rw [List.find?_range_eq_some]
    refine ⟨by simp [hsizes], List.mem_range.mpr hi, fun j hj => ?_⟩
    have hne : cacheSizes j ≠ cacheSizes i := fun he =>
      hj.ne (cacheSizes_inj (hj.trans hi) hi he)
    simp [hsizes, hne]
  rw [cacheIndexExact, hfind]

/-- What `kmalloc` returns: a chunk that was free, of the chosen cache. -/
structure Allocated (size : ℕ) (p q : Pool) (live : Finset ℕ) (c : ℕ) : Prop where
  fresh : c ∉ live
  shape : ∃ lists, PoolShape q (insert c live) lists
  mapped : q.mapped ⊆ insert (pageOf c) p.mapped
  vptr : q.vptr = p.vptr ∧ q.mapped = p.mapped ∨
    q.vptr = p.vptr + pageSize ∧ q.mapped = insert p.vptr p.mapped
  kept : ∀ b ∈ p.mapped, q.hdrObjSize b = p.hdrObjSize b
  contents : ∀ d ∈ live, ∀ a, d ≤ a → a < d + ksize p d → q.mem a = p.mem a
  fits : IsLeast {n | size ≤ n ∧ ∃ j < kmemCacheCount, n = cacheSizes j} (q.hdrObjSize (pageOf c))

theorem popChunk_allocated (hs : PoolShape p live lists) (hi : i < kmemCacheCount)
    (hl : lists i ≠ [])
    (hleast : IsLeast {n | size ≤ n ∧ ∃ j < kmemCacheCount, n = cacheSizes j} (cacheSizes i)) :
    Allocated size p (popChunk i p).2 live (popChunk i p).1 ∧ (popChunk i p).1 ∈ lists i := by
  obtain ⟨c, rest, hl⟩ := List.exists_cons_of_ne_nil hl
  have hcmem : c ∈ lists i := by simp [hl]
  obtain ⟨hc, hshape⟩ := hs.popChunk hi hl
  obtain ⟨hpage, hsize, hchunk, hlive⟩ := hs.mem_list hi hcmem
  have hkept : ∀ b ∈ p.mapped, (popChunk i p).2.hdrObjSize b = p.hdrObjSize b := by
    intro b hb
    have hdvd := (hs.page b hb).1
    have hdvd' := (hs.page _ hpage).1
    change Function.update p.mem (pageOf (popChunk i p).1 + 4) _ b = _
    rw [hc]
    refine Function.update_of_ne (fun he => ?_) _ _
    simp only [pageSize] at hdvd hdvd'
    omega
  have hcontents : ∀ d ∈ live, ∀ a, d ≤ a → a < d + ksize p d → (popChunk i p).2.mem a = p.mem a := by
    intro d hd a ha ha'
    change Function.update p.mem (pageOf (popChunk i p).1 + 4) _ a = _
    rw [hc]
    exact Function.update_of_ne (hs.cell_ne_header hd ha ha' (hs.page _ hpage).1 (by decide)) _ _
  rw [hc]
  refine ⟨⟨hlive, ⟨_, hshape⟩, Finset.subset_insert _ _, .inl ⟨rfl, rfl⟩, hkept, hcontents, ?_⟩, hcmem⟩
  rw [hkept _ hpage, hsize]
  exact hleast

theorem kmalloc_ok (hs : PoolShape p live lists) (h₁ : 1 ≤ size) (h₂ : size ≤ 256)
    (hok : kmalloc ok size p = .ok (c, q)) : Allocated size p q live c := by
  obtain ⟨i, hi, hidx, hleast⟩ := cacheIndex_eq hs.sizes h₂
  rw [kmalloc, if_neg (by omega), if_neg (by omega)] at hok
  simp only [hidx, Option.getD_some] at hok
  by_cases hnil : lists i = []
  · have hfl : p.freeList i = 0 := by
      have hchain := hs.chain i hi
      rw [hnil] at hchain
      exact ptr_eq_none.mp hchain
    rw [if_pos hfl] at hok
    obtain ⟨r, hrefill, hok⟩ := bind_eq_ok.mp hok
    obtain ⟨rfl, rfl⟩ : (popChunk i r).1 = c ∧ (popChunk i r).2 = q := by
      rw [Except.ok.inj hok]
      exact ⟨rfl, rfl⟩
    have hr := cpoolRefill_ok hs hi hrefill
    have hshape := hs.refill hi hnil hr
    have hne : Function.update lists i (chunks p.vptr (cacheSizes i)) i ≠ [] := by
      rw [Function.update_self, ← List.length_pos_iff, length_chunks]
      exact chunkCount_pos hi
    obtain ⟨ha, hmem⟩ := popChunk_allocated hshape hi hne hleast
    rw [Function.update_self] at hmem
    have hpage : pageOf (popChunk i r).1 = p.vptr :=
      hshape.pageOf_chunk (hr.mapped ▸ Finset.mem_insert_self _ _) hi hmem
    have holdSize : ∀ b ∈ p.mapped, r.hdrObjSize b = p.hdrObjSize b := by
      intro b hb
      have := (hs.page b hb).2.2
      simp only [pageSize] at this
      exact hr.old b (by omega)
    refine ⟨ha.fresh, ha.shape, ?_, .inr ⟨hr.vptr, hr.mapped⟩, fun b hb => ?_, fun d hd a h₃ h₄ => ?_, ha.fits⟩
    · have hsub := ha.mapped
      rw [hr.mapped, hpage, Finset.insert_idem] at hsub
      rw [hpage]
      exact hsub
    · rw [ha.kept b (hr.mapped ▸ Finset.mem_insert_of_mem hb)]
      exact holdSize b hb
    · obtain ⟨hpaged, hlow, hhigh⟩ := hs.live_bounds hd
      have hsize : Kmalloc.ksize r d = Kmalloc.ksize p d := by
        unfold Kmalloc.ksize
        rw [holdSize _ hpaged]
      have hvptr := (hs.page _ hpaged).2.2
      rw [ha.contents d hd a h₃ (hsize ▸ h₄)]
      exact hr.old a (by omega)
  · have hfl : p.freeList i ≠ 0 := by
      intro h0
      have hchain := hs.chain i hi
      rw [h0] at hchain
      exact hnil hchain.eq_nil
    rw [if_neg hfl] at hok
    obtain ⟨rfl, rfl⟩ : (popChunk i p).1 = c ∧ (popChunk i p).2 = q := by
      rw [Except.ok.inj hok]
      exact ⟨rfl, rfl⟩
    exact (popChunk_allocated hs hi hnil hleast).1

/-- What `kfree` has done when it returns: the chunk is free, and its page is gone if no
other chunk of it is live. -/
structure Freed (p q : Pool) (live : Finset ℕ) (c : ℕ) : Prop where
  shape : ∃ lists, PoolShape q (live.erase c) lists
  mapped : q.mapped ⊆ p.mapped
  vptr : q.vptr = p.vptr
  busy : pageOf c ∈ q.mapped → ∃ d ∈ live.erase c, pageOf d = pageOf c
  kept : ∀ b ∈ p.mapped, q.hdrObjSize b = p.hdrObjSize b
  contents : ∀ d ∈ live, d ≠ c → ∀ a, d ≤ a → a < d + ksize p d → q.mem a = p.mem a

theorem pushChunk_hdrObjSize (hs : PoolShape p live lists) (hc : c ∈ live) (hb : b ∈ p.mapped) :
    (pushChunk i c p).hdrObjSize b = p.hdrObjSize b := by
  obtain ⟨hpage, k, hk, -, hchunk⟩ := hs.mem_live hc
  have hdvd := (hs.page _ hpage).1
  have hdvd' := (hs.page b hb).1
  have hbc : b ≠ c := (chunk_ne_header hdvd hdvd' hk hchunk (by decide : 0 < cpoolHdrSize)).symm
  have hcount : b ≠ pageOf c + 4 := by
    simp only [pageSize] at hdvd hdvd'
    omega
  exact (Function.update_of_ne hcount _ _).trans (Function.update_of_ne hbc _ _)

/-- A page whose free count is its chunk count has no live chunk. -/
theorem PoolShape.all_free_iff (hs : PoolShape p live lists) (hb : b ∈ p.mapped) :
    p.hdrFreeCount b = p.hdrTotalCount b ↔ ∀ d ∈ live, pageOf d ≠ b := by
  obtain ⟨i, hi, hhdr⟩ := hs.header b hb
  rw [hhdr.free, hhdr.total]
  constructor
  · rintro hlen d hd rfl
    obtain ⟨-, k, hk, hhdr', hchunk⟩ := hs.mem_live hd
    obtain rfl : k = i := cacheSizes_inj hk hi (hhdr'.objSize.symm.trans hhdr.objSize)
    exact length_freeChunks_eq hlen d hchunk hd
  · intro hnone
    rw [freeChunks_eq_chunks fun d hd hlive => hnone d hlive (hs.pageOf_chunk hb hi hd), length_chunks]

/-- Threading a chunk leaves what the other objects hold. -/
theorem pushChunk_contents (hs : PoolShape p live lists) (hc : c ∈ live) (hi : i < kmemCacheCount)
    (hobj : p.hdrObjSize (pageOf c) = cacheSizes i) (hchunk : c ∈ chunks (pageOf c) (cacheSizes i)) :
    ∀ d ∈ live, d ≠ c → ∀ a, d ≤ a → a < d + ksize p d → (pushChunk i c p).mem a = p.mem a := by
  intro d hd hdc a ha ha'
  have hpage := (hs.mem_live hc).1
  have hcell : a ≠ c := hs.cell_ne_chunk hd ha ha' hi hpage hobj hchunk hdc.symm
  have hhead : a ≠ pageOf c + 4 := hs.cell_ne_header hd ha ha' (hs.page _ hpage).1 (by decide)
  exact (Function.update_of_ne hhead _ _).trans (Function.update_of_ne hcell _ _)

/-- `kfree` of a live object finds the cache it came from. -/
theorem kfree_push (hs : PoolShape p live lists) (hc : c ∈ live) (hi : i < kmemCacheCount)
    (hobj : p.hdrObjSize (pageOf c) = cacheSizes i) (fuel : ℕ) : kfree fuel c p =
      if (pushChunk i c p).hdrFreeCount (pageOf c) = (pushChunk i c p).hdrTotalCount (pageOf c) then
        unlinkPage i (pageOf c) fuel none (pushChunk i c p) >>= fun r =>
          .ok { r with mapped := r.mapped.erase (pageOf c), pageCount := r.pageCount - 1 }
      else .ok (pushChunk i c p) := by
  have hpos := hs.live_pos hc
  dsimp only [kfree]
  rw [if_neg (by omega), hobj, cacheIndexExact_eq hs.sizes hi]
  rfl

/-- Freeing a live chunk ends, in one way whatever the fuel. -/
theorem kfree_eq (hs : PoolShape p live lists) (hc : c ∈ live) :
    ∃ q, Freed p q live c ∧ (∀ fuel r, kfree fuel c p = .ok r → r = q) ∧
      ∃ bound, ∀ fuel, bound ≤ fuel → kfree fuel c p = .ok q := by
  obtain ⟨hpage, i, hi, hhdr, hchunk⟩ := hs.mem_live hc
  have hs₁ := hs.pushChunk hi hc hhdr.objSize
  have hkept : ∀ b ∈ p.mapped, (pushChunk i c p).hdrObjSize b = p.hdrObjSize b := fun b hb =>
    pushChunk_hdrObjSize hs hc hb
  have heq := kfree_push hs hc hi hhdr.objSize
  have hpage₁ : pageOf c ∈ (pushChunk i c p).mapped := hpage
  have hpushed := pushChunk_contents hs hc hi hhdr.objSize hchunk
  have hsize₁ : ∀ d ∈ live, ksize (pushChunk i c p) d = ksize p d := by
    intro d hd
    unfold ksize
    rw [hkept _ (hs.mem_live hd).1]
  have hfull := hs₁.all_free_iff hpage₁
  by_cases hall : (pushChunk i c p).hdrFreeCount (pageOf c) = (pushChunk i c p).hdrTotalCount (pageOf c)
  · have hnone := hfull.mp hall
    have hobj₁ := (hkept _ hpage).trans hhdr.objSize
    have hcur : ∀ a ∈ (none : Option ℕ), a ∉ Function.update lists i (c :: lists i) i := by simp
    obtain ⟨r, hu, hr⟩ := unlinkPage_eq (hs₁.chain i hi) hcur
    have hshape := hs₁.unmap hi hpage₁ hobj₁
      (fun d hd hlive => hnone d hlive (hs₁.pageOf_chunk hpage₁ hi hd)) hu
    have hmapped : r.mapped = p.mapped := by
      rw [hu.same]
      rfl
    refine ⟨_, ⟨⟨_, hshape⟩, ?_, ?_, fun hmem => ?_, fun b hb => ?_, fun d hd hdc a ha ha' => ?_⟩,
      fun fuel q hq => ?_, ?_⟩
    · rw [hmapped]
      exact Finset.erase_subset _ _
    · change r.vptr = p.vptr
      rw [hu.same]
      rfl
    · exact absurd rfl (Finset.mem_erase.mp hmem).1
    · refine Eq.trans (hu.mem b (by simp) fun hb' => ?_) (hkept b hb)
      exact hs₁.list_ne_header hi hb' (hs₁.page b hb).1 (by decide : 0 < cpoolHdrSize) rfl
    · refine Eq.trans (hu.mem a (by simp) fun hmem => ?_) (hpushed d hd hdc a ha ha')
      -- the links that are rewritten are those of free chunks
      have hd' : d ∈ live.erase c := Finset.mem_erase.mpr ⟨hdc, hd⟩
      obtain ⟨hp, hz, hch, hfree⟩ := hs₁.mem_list hi hmem
      rw [← hsize₁ d hd] at ha'
      exact hs₁.cell_ne_chunk hd' ha ha' hi hp hz hch (fun he => hfree (he ▸ hd')) rfl
    · rw [heq, if_pos hall, hr] at hq
      split at hq
      · exact (Except.ok.inj hq).symm
      · exact nomatch hq
    · refine ⟨(Function.update lists i (c :: lists i) i).length + 1, fun fuel hfuel => ?_⟩
      rw [heq, if_pos hall, hr, if_pos (Nat.lt_of_succ_le hfuel)]
      rfl
  · refine ⟨pushChunk i c p, ⟨⟨_, hs₁⟩, Finset.Subset.refl _, rfl, fun _ => ?_, hkept, hpushed⟩, fun fuel q hq => ?_,
      0, fun fuel _ => ?_⟩
    · have hsome := mt hfull.mpr hall
      push Not at hsome
      exact hsome
    · rw [heq, if_neg hall] at hq
      exact (Except.ok.inj hq).symm
    · rw [heq, if_neg hall]

/-- A pool together with the objects handed out and the size each was requested for. -/
structure PoolState where
  pool : Pool
  live : Finset ℕ
  request : ℕ → ℕ

/-- One call that returns, or a client's store inside one of its objects. -/
inductive PoolStep (s : PoolState) : PoolState → Prop where
  | kmalloc {c size : ℕ} {q : Pool} (allocPage : Bool) (h₁ : 1 ≤ size) (h₂ : size ≤ 256)
      (hok : kmalloc allocPage size s.pool = .ok (c, q)) :
      PoolStep s ⟨q, insert c s.live, Function.update s.request c size⟩
  | kfree {c : ℕ} {q : Pool} (fuel : ℕ) (hc : c ∈ s.live) (hok : kfree fuel c s.pool = .ok q) :
      PoolStep s ⟨q, s.live.erase c, s.request⟩
  | write {c a : ℕ} (v : ℕ) (hc : c ∈ s.live) (ha : c ≤ a) (ha' : a < c + ksize s.pool c) :
      PoolStep s ⟨s.pool.store a v, s.live, s.request⟩

def PoolReachable (s : PoolState) : Prop :=
  Reachable (fun s => s.live = ∅ ∧ ∃ mem, s.pool = kmallocInit mem) PoolStep s

structure PoolInvariant (s : PoolState) : Prop where
  shape : ∃ lists, PoolShape s.pool s.live lists
  busy : ∀ b ∈ s.pool.mapped, ∃ c ∈ s.live, pageOf c = b
  fits : ∀ c ∈ s.live, IsLeast {n | s.request c ≤ n ∧ ∃ j < kmemCacheCount, n = cacheSizes j}
    (s.pool.hdrObjSize (pageOf c))

variable {s t : PoolState}

theorem poolInvariant_init {mem : ℕ → ℕ} (hlive : s.live = ∅) (hpool : s.pool = kmallocInit mem) :
    PoolInvariant s := by
  have hmapped : s.pool.mapped = ∅ := by rw [hpool]; rfl
  refine ⟨⟨fun _ => [], ?_⟩, by simp [hmapped], by simp [hlive]⟩
  rw [hpool, hlive]
  have haligned : pageSize ∣ kcpoolVirtBase := by decide
  have hmax : kcpoolVirtBase ≤ kcpoolVirtMax := by decide
  refine ⟨rfl, haligned, le_rfl, hmax, ?_, ?_, fun _ _ => rfl, ?_, by simp, rfl, rfl⟩ <;>
    simp [kmallocInit]

theorem poolInvariant_step (hi : PoolInvariant s) (hstep : PoolStep s t) : PoolInvariant t := by
  obtain ⟨lists, hs⟩ := hi.shape
  cases hstep with
  | @kmalloc c size q ok h₁ h₂ hok =>
    have ha := kmalloc_ok hs h₁ h₂ hok
    refine ⟨ha.shape, fun b hb => ?_, fun d hd => ?_⟩
    · rcases Finset.mem_insert.mp (ha.mapped hb) with rfl | hb
      · exact ⟨c, Finset.mem_insert_self _ _, rfl⟩
      · obtain ⟨d, hd, hpage⟩ := hi.busy b hb
        exact ⟨d, Finset.mem_insert_of_mem hd, hpage⟩
    · rcases Finset.mem_insert.mp hd with rfl | hd
      · simp only [Function.update_self]
        exact ha.fits
      · have hdc : d ≠ c := fun he => ha.fresh (he ▸ hd)
        simp only [Function.update_of_ne hdc, ha.kept _ (hs.mem_live hd).1]
        exact hi.fits d hd
  | @kfree c q fuel hc hok =>
    obtain ⟨r, hf, huniq, -⟩ := kfree_eq hs hc
    obtain rfl := huniq fuel q hok
    refine ⟨hf.shape, fun b hb => ?_, fun d hd => ?_⟩
    · by_cases hbc : b = pageOf c
      · subst hbc
        exact hf.busy hb
      · obtain ⟨d, hd, hpage⟩ := hi.busy b (hf.mapped hb)
        have hdc : d ≠ c := fun he => hbc (he ▸ hpage).symm
        exact ⟨d, Finset.mem_erase.mpr ⟨hdc, hd⟩, hpage⟩
    · have hd := Finset.mem_of_mem_erase hd
      simp only [hf.kept _ (hs.mem_live hd).1]
      exact hi.fits d hd
  | @write c a v hc ha ha' =>
    refine ⟨⟨lists, hs.write hc ha ha'⟩, hi.busy, fun d hd => ?_⟩
    have hobj : (s.pool.store a v).hdrObjSize (pageOf d) = s.pool.hdrObjSize (pageOf d) :=
      hs.store_header hc ha ha' (hs.mem_live hd).1 (by decide : 0 < cpoolHdrSize)
    simp only [hobj]
    exact hi.fits d hd

theorem PoolReachable.invariant (hs : PoolReachable s) : PoolInvariant s := by
  refine Reachable.invariant (I := PoolInvariant) ?_ ?_ hs
  · rintro s ⟨hlive, mem, hpool⟩
    exact poolInvariant_init hlive hpool
  · intro s t hi hstep
    exact poolInvariant_step hi hstep

/-- The pool as the free lists, the page headers and the counters describe it. -/
structure PoolRepresents (s : PoolState) (lists : ℕ → List ℕ) : Prop where
  chain : ∀ i < kmemCacheCount, Chain s.pool.next (ptr (s.pool.freeList i)) (lists i)
  nodup : ∀ i < kmemCacheCount, (lists i).Nodup
  listed : ∀ i < kmemCacheCount, ∀ c ∈ lists i, pageOf c ∈ s.pool.mapped ∧
    s.pool.hdrObjSize (pageOf c) = cacheSizes i ∧ c ∈ chunks (pageOf c) (cacheSizes i)
  partition : ∀ b ∈ s.pool.mapped, ∃ i < kmemCacheCount, s.pool.hdrObjSize b = cacheSizes i ∧
    ∀ c ∈ chunks b (cacheSizes i), Xor (c ∈ s.live) (c ∈ lists i)
  freeCount : ∀ b ∈ s.pool.mapped, ∀ i < kmemCacheCount, s.pool.hdrObjSize b = cacheSizes i →
    s.pool.hdrFreeCount b = ((lists i).filter fun c => decide (pageOf c = b)).length
  totalCount : ∀ b ∈ s.pool.mapped,
    s.pool.hdrTotalCount b = (chunks b (s.pool.hdrObjSize b)).length
  busy : ∀ b ∈ s.pool.mapped, s.pool.hdrFreeCount b < s.pool.hdrTotalCount b
  pageCount : s.pool.pageCount = s.pool.mapped.card
  usedCount : s.pool.usedCount = s.live.card
  disjoint : ∀ c ∈ s.live, ∀ d ∈ s.live, c ≠ d →
    c + ksize s.pool c ≤ d ∨ d + ksize s.pool d ≤ c
  header : ∀ c ∈ s.live, ∀ b ∈ s.pool.mapped, c + ksize s.pool c ≤ b ∨ b + cpoolHdrSize ≤ c
  range : ∀ c ∈ s.live, kcpoolVirtBase ≤ c ∧ c + ksize s.pool c ≤ kcpoolVirtMax
  ksize : ∀ c ∈ s.live, IsLeast {n | s.request c ≤ n ∧ ∃ j < kmemCacheCount, n = cacheSizes j}
    (ksize s.pool c)

/-- The list of a cache and the count in a header agree on the free chunks of a page. -/
theorem PoolShape.length_listed (hs : PoolShape p live lists) (hb : b ∈ p.mapped)
    (hi : i < kmemCacheCount) (hhdr : p.hdrObjSize b = cacheSizes i) :
    ((lists i).filter fun c => decide (pageOf c = b)).length =
      (freeChunks live b (cacheSizes i)).length := by
  refine List.Perm.length_eq ((List.perm_ext_iff_of_nodup ?_ ?_).mpr fun c => ?_)
  · exact (hs.chain i hi).nodup.filter _
  · exact (nodup_chunks (cacheSizes_pos hi)).filter _
  · rw [List.mem_filter, hs.listed i hi c, decide_eq_true_iff]
    constructor
    · rintro ⟨⟨b', hb', -, hc⟩, rfl⟩
      rwa [hs.pageOf_chunk hb' hi (mem_freeChunks.mp hc).1]
    · intro hc
      exact ⟨⟨b, hb, hhdr, hc⟩, hs.pageOf_chunk hb hi (mem_freeChunks.mp hc).1⟩

theorem PoolShape.ksize_eq (hs : PoolShape p live lists) (hc : c ∈ live) :
    Kmalloc.ksize p c = p.hdrObjSize (pageOf c) := if_neg (hs.live_pos hc).ne'

theorem PoolInvariant.represents (hi : PoolInvariant s) : ∃ lists, PoolRepresents s lists := by
  obtain ⟨lists, hs⟩ := hi.shape
  refine ⟨lists, hs.chain, fun i hi => (hs.chain i hi).nodup, fun i hi c hc => ?_, fun b hb => ?_,
    fun b hb i hi hhdr => ?_, fun b hb => ?_, fun b hb => ?_, hs.pages, hs.used,
    fun c hc d hd hne => ?_, fun c hc b hb => ?_, fun c hc => ?_, fun c hc => ?_⟩
  · obtain ⟨h₁, h₂, h₃, -⟩ := hs.mem_list hi hc
    exact ⟨h₁, h₂, h₃⟩
  · obtain ⟨i, hi', hhdr⟩ := hs.header b hb
    refine ⟨i, hi', hhdr.objSize, fun c hc => ?_⟩
    by_cases hlive : c ∈ s.live
    · exact .inl ⟨hlive, fun h => (hs.mem_list hi' h).2.2.2 hlive⟩
    · exact .inr ⟨(hs.listed i hi' c).mpr ⟨b, hb, hhdr.objSize, mem_freeChunks.mpr ⟨hc, hlive⟩⟩, hlive⟩
  · obtain ⟨k, hk, hhdr'⟩ := hs.header b hb
    obtain rfl : k = i := cacheSizes_inj hk hi (hhdr'.objSize.symm.trans hhdr)
    rw [hs.length_listed hb hk hhdr, hhdr'.free]
  · obtain ⟨i, -, hhdr⟩ := hs.header b hb
    rw [hhdr.total, hhdr.objSize, length_chunks]
  · obtain ⟨i, hi', hhdr⟩ := hs.header b hb
    have hle : s.pool.hdrFreeCount b ≤ s.pool.hdrTotalCount b := by
      rw [hhdr.free, hhdr.total]
      exact length_freeChunks_le
    have hne : s.pool.hdrFreeCount b ≠ s.pool.hdrTotalCount b := by
      intro he
      obtain ⟨c, hc, hpage⟩ := hi.busy b hb
      exact (hs.all_free_iff hb).mp he c hc hpage
    omega
  · exact hs.live_disjoint hc hd hne
  · obtain ⟨hp, h₁, h₂⟩ := hs.live_bounds hc
    have hdvd := (hs.page _ hp).1
    have hdvd' := (hs.page b hb).1
    simp only [pageSize, cpoolHdrSize] at *
    omega
  · obtain ⟨hp, h₁, h₂⟩ := hs.live_bounds hc
    have hpage := hs.page _ hp
    have hmax := hs.vptr_le
    constructor <;> omega
  · rw [hs.ksize_eq hc]
    exact hi.fits c hc

/-- After every history of calls the free lists, the page headers and the counters describe
the live objects, and freeing any of these returns. -/
theorem pool_representation (s : PoolState) (hs : PoolReachable s) :
    (∃ lists, PoolRepresents s lists) ∧
      ∀ c ∈ s.live, ∃ fuel q, kfree fuel c s.pool = .ok q := by
  have hi := PoolReachable.invariant hs
  refine ⟨hi.represents, fun c hc => ?_⟩
  obtain ⟨lists, hshape⟩ := hi.shape
  obtain ⟨q, -, -, bound, hok⟩ := kfree_eq hshape hc
  exact ⟨bound, q, hok bound (le_refl bound)⟩

/-- The first object is handed out on a fresh page. -/
theorem kmalloc_init (mem : ℕ → ℕ) (h₁ : 1 ≤ size) (h₂ : size ≤ 256) :
    ∃ c q, kmalloc true size (kmallocInit mem) = .ok (c, q) := by
  have hzone : ¬add32 kcpoolVirtBase pageSize > kcpoolVirtMax := by decide
  rw [kmalloc, if_neg (by omega), if_neg (by omega)]
  simp only [cpoolRefill, kmallocInit, hzone, ↓reduceIte, Bool.not_true, Bool.false_eq_true]
  exact ⟨_, _, rfl⟩

/-- An object of 100 bytes is handed out on a fresh page and freed again. -/
theorem pool_representation_run : ∃ c q, kmalloc true 100 (kmallocInit fun _ => 0) = .ok (c, q) ∧
    ∃ fuel r, kfree fuel c q = .ok r ∧ ∃ lists,
      PoolRepresents ⟨r, (insert c ∅ : Finset ℕ).erase c, Function.update (fun _ => 0) c 100⟩ lists := by
  obtain ⟨c, q, halloc⟩ := @kmalloc_init 100 (fun _ => 0) (by decide) (by decide)
  have hinit : PoolReachable ⟨kmallocInit fun _ => 0, ∅, fun _ => 0⟩ := .start ⟨rfl, _, rfl⟩
  have hmid := hinit.next (.kmalloc true (by decide) (by decide) halloc)
  have hc : c ∈ insert c (∅ : Finset ℕ) := Finset.mem_insert_self _ _
  obtain ⟨fuel, r, hfree⟩ := (pool_representation _ hmid).2 c hc
  exact ⟨c, q, halloc, fuel, r, hfree, (pool_representation _ (hmid.next (.kfree fuel hc hfree))).1⟩

end HekaOS.Kmalloc
