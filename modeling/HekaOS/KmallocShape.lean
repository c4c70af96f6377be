import HekaOS.KmallocPages

/-!
# The shape of the chunk pool

`PoolShape` reads a pool as a set of live chunks and one free list for each cache. Taking a
chunk, putting one back, cutting a fresh page into chunks and unlinking a page keep it;
`kmalloc` and `kfree` are composed of these four.
-/

namespace HekaOS.Kmalloc
open MachineWord KernelMemory PointerChain

variable {p q : Pool} {live : Finset ℕ} {lists : ℕ → List ℕ} {a b c i j v size fuel : ℕ}

/-- What a page header says about a page. -/
structure HeaderAt (p : Pool) (live : Finset ℕ) (b size : ℕ) : Prop where
  objSize : p.hdrObjSize b = size
  total : p.hdrTotalCount b = cpoolDataSize / size
  free : p.hdrFreeCount b = (freeChunks live b size).length

structure PoolShape (p : Pool) (live : Finset ℕ) (lists : ℕ → List ℕ) : Prop where
  sizes : p.objSize = cacheSizes
  vptr_aligned : pageSize ∣ p.vptr
  base_le : kcpoolVirtBase ≤ p.vptr
  vptr_le : p.vptr ≤ kcpoolVirtMax
  page : ∀ b ∈ p.mapped, pageSize ∣ b ∧ kcpoolVirtBase ≤ b ∧ b + pageSize ≤ p.vptr
  header : ∀ b ∈ p.mapped, ∃ i < kmemCacheCount, HeaderAt p live b (cacheSizes i)
  chain : ∀ i < kmemCacheCount, Chain p.next (ptr (p.freeList i)) (lists i)
  listed : ∀ i < kmemCacheCount, ∀ c, c ∈ lists i ↔
    ∃ b ∈ p.mapped, p.hdrObjSize b = cacheSizes i ∧ c ∈ freeChunks live b (cacheSizes i)
  owned : ∀ c ∈ live, ∃ b ∈ p.mapped, c ∈ chunks b (p.hdrObjSize b)
  pages : p.pageCount = p.mapped.card
  used : p.usedCount = live.card

namespace PoolShape

theorem pageOf_chunk (hs : PoolShape p live lists) (hb : b ∈ p.mapped) (hi : i < kmemCacheCount)
    (hc : c ∈ chunks b (cacheSizes i)) : pageOf c = b := by
  obtain ⟨hdvd, -, hle⟩ := hs.page b hb
  have hbounds := chunk_bounds hc
  have hpos := cacheSizes_pos hi
  have hmax := hs.vptr_le
  refine pageOf_eq hdvd ?_ ?_ ?_
  all_goals
    simp only [cpoolHdrSize, pageSize, kcpoolVirtMax, wordSize] at *
    omega

/-- A listed chunk is a free chunk of the page its address names. -/
theorem mem_list (hs : PoolShape p live lists) (hi : i < kmemCacheCount) (hc : c ∈ lists i) :
    pageOf c ∈ p.mapped ∧ p.hdrObjSize (pageOf c) = cacheSizes i ∧
      c ∈ chunks (pageOf c) (cacheSizes i) ∧ c ∉ live := by
  obtain ⟨b, hb, hsize, hfree⟩ := (hs.listed i hi c).mp hc
  obtain ⟨hchunk, hlive⟩ := mem_freeChunks.mp hfree
  rw [hs.pageOf_chunk hb hi hchunk]
  exact ⟨hb, hsize, hchunk, hlive⟩

theorem mem_live (hs : PoolShape p live lists) (hc : c ∈ live) :
    pageOf c ∈ p.mapped ∧ ∃ i < kmemCacheCount, HeaderAt p live (pageOf c) (cacheSizes i) ∧
      c ∈ chunks (pageOf c) (cacheSizes i) := by
  obtain ⟨b, hb, hchunk⟩ := hs.owned c hc
  obtain ⟨i, hi, hhdr⟩ := hs.header b hb
  rw [hhdr.objSize] at hchunk
  rw [hs.pageOf_chunk hb hi hchunk]
  exact ⟨hb, i, hi, hhdr, hchunk⟩

/-- No list passes through a header. -/
theorem list_ne_header (hs : PoolShape p live lists) (hi : i < kmemCacheCount) (hc : c ∈ lists i)
    (hb : pageSize ∣ b) (hk : j < cpoolHdrSize) : c ≠ b + j := by
  obtain ⟨hpage, -, hchunk, -⟩ := hs.mem_list hi hc
  exact chunk_ne_header (hs.page _ hpage).1 hb hi hchunk hk

theorem listed_ne (hs : PoolShape p live lists) (hi : i < kmemCacheCount) (hj : j < kmemCacheCount)
    (hij : i ≠ j) (hc : c ∈ lists i) : c ∉ lists j := by
  intro hc'
  have h₁ := (hs.mem_list hi hc).2.1
  have h₂ := (hs.mem_list hj hc').2.1
  exact hij (cacheSizes_inj hi hj (h₁.symm.trans h₂))

end PoolShape

/-- `q` is `p` with the chunk `c` of the page `b` handed out or taken back: the memory changes at most in
the chunk's link and in the free count of its page, and only the list of its cache changes. -/
structure Moved (p q : Pool) (live live' : Finset ℕ) (b c i : ℕ) : Prop where
  page : b ∈ p.mapped
  cache : i < kmemCacheCount
  header : p.hdrObjSize b = cacheSizes i
  chunk : c ∈ chunks b (cacheSizes i)
  live : ∀ d, d ≠ c → (d ∈ live' ↔ d ∈ live)
  sizes : q.objSize = p.objSize
  vptr : q.vptr = p.vptr
  mapped : q.mapped = p.mapped
  pages : q.pageCount = p.pageCount
  used : q.usedCount = live'.card
  mem : ∀ w, w ≠ c → w ≠ b + 4 → q.mem w = p.mem w
  count : q.hdrFreeCount b = (freeChunks live' b (cacheSizes i)).length
  lists : ∀ k, k ≠ i → q.freeList k = p.freeList k

namespace Moved

variable {live' : Finset ℕ} {l : List ℕ} {b' d k : ℕ}

/-- A header cell is neither in the chunk nor another page's free count. -/
theorem cell (h : Moved p q live live' b c i) (hs : PoolShape p live lists) (hb' : b' ∈ p.mapped) (hk : k < 8)
    (hne : b' ≠ b ∨ k ≠ 4) : q.mem (b' + k) = p.mem (b' + k) := by
  have hdvd := (hs.page b h.page).1
  have hdvd' := (hs.page b' hb').1
  refine h.mem _ (chunk_ne_header hdvd hdvd' h.cache h.chunk hk).symm fun he => ?_
  simp only [pageSize] at hdvd hdvd'
  omega

theorem objSize (h : Moved p q live live' b c i) (hs : PoolShape p live lists) (hb' : b' ∈ p.mapped) :
    q.hdrObjSize b' = p.hdrObjSize b' :=
  h.cell hs hb' (by decide : 0 < 8) (.inr (by decide))

/-- The chunks of the other pages stay as they are. -/
theorem freeChunks_eq (h : Moved p q live live' b c i) (hs : PoolShape p live lists) (hb' : b' ∈ p.mapped) (hne : b' ≠ b)
    (hk : k < kmemCacheCount) : freeChunks live' b' (cacheSizes k) = freeChunks live b' (cacheSizes k) := by
  refine freeChunks_congr fun d hd => h.live d fun he => hne ?_
  rw [← hs.pageOf_chunk hb' hk hd, he, hs.pageOf_chunk h.page h.cache h.chunk]

theorem headerAt (h : Moved p q live live' b c i) (hs : PoolShape p live lists) (hb' : b' ∈ p.mapped) :
    ∃ k < kmemCacheCount, HeaderAt q live' b' (cacheSizes k) := by
  obtain ⟨k, hk, hh⟩ := hs.header b' hb'
  have htotal : q.hdrTotalCount b' = p.hdrTotalCount b' := h.cell hs hb' (by decide : 6 < 8) (.inr (by decide))
  refine ⟨k, hk, (h.objSize hs hb').trans hh.objSize, htotal.trans hh.total, ?_⟩
  by_cases hne : b' = b
  · subst hne
    obtain rfl : k = i := cacheSizes_inj hk h.cache (hh.objSize.symm.trans h.header)
    exact h.count
  · have hfree : q.hdrFreeCount b' = p.hdrFreeCount b' := h.cell hs hb' (by decide : 4 < 8) (.inl hne)
    rw [hfree, h.freeChunks_eq hs hb' hne hk]
    exact hh.free

/-- The lists of the other caches stay as they are. -/
theorem chain (h : Moved p q live live' b c i) (hs : PoolShape p live lists) (hne : k ≠ i) (hk : k < kmemCacheCount) :
    Chain q.next (ptr (q.freeList k)) (lists k) := by
  rw [h.lists k hne]
  refine (hs.chain k hk).congr fun d hd => ?_
  obtain ⟨-, hsize, -, -⟩ := hs.mem_list hk hd
  have hdc : d ≠ c := by
    rintro rfl
    rw [hs.pageOf_chunk h.page h.cache h.chunk] at hsize
    exact hne (cacheSizes_inj hk h.cache (hsize.symm.trans h.header))
  have hcell := hs.list_ne_header hk hd (hs.page b h.page).1 (by decide : 4 < cpoolHdrSize)
  simp only [Pool.next, h.mem d hdc hcell]

theorem listed_other (h : Moved p q live live' b c i) (hs : PoolShape p live lists) (hne : k ≠ i) (hk : k < kmemCacheCount) :
    d ∈ lists k ↔ ∃ b' ∈ p.mapped, q.hdrObjSize b' = cacheSizes k ∧ d ∈ freeChunks live' b' (cacheSizes k) := by
  rw [hs.listed k hk d]
  refine exists_congr fun b' => and_congr_right fun hb' => ?_
  rw [h.objSize hs hb']
  refine and_congr_right fun hsize => ?_
  have hother : b' ≠ b := by
    rintro rfl
    exact hne (cacheSizes_inj hk h.cache (hsize.symm.trans h.header))
  rw [h.freeChunks_eq hs hb' hother hk]

theorem listed_self (h : Moved p q live live' b c i) (hs : PoolShape p live lists) :
    (d = c ∨ d ∈ lists i) ∧ d ∉ live' ↔
      ∃ b' ∈ p.mapped, q.hdrObjSize b' = cacheSizes i ∧ d ∈ freeChunks live' b' (cacheSizes i) := by
  rw [hs.listed i h.cache d]
  constructor
  · rintro ⟨rfl | ⟨b', hb', hsize, hfree⟩, hd⟩
    · exact ⟨b, h.page, (h.objSize hs h.page).trans h.header, mem_freeChunks.mpr ⟨h.chunk, hd⟩⟩
    · exact ⟨b', hb', (h.objSize hs hb').trans hsize, mem_freeChunks.mpr ⟨(mem_freeChunks.mp hfree).1, hd⟩⟩
  · rintro ⟨b', hb', hsize, hfree⟩
    obtain ⟨hchunk, hd⟩ := mem_freeChunks.mp hfree
    refine ⟨?_, hd⟩
    by_cases hdc : d = c
    · exact .inl hdc
    · have hlive : d ∉ live := fun hin => hd ((h.live d hdc).mpr hin)
      exact .inr ⟨b', hb', (h.objSize hs hb').symm.trans hsize, mem_freeChunks.mpr ⟨hchunk, hlive⟩⟩

theorem owned (h : Moved p q live live' b c i) (hs : PoolShape p live lists) (hd : d ∈ live') :
    ∃ b' ∈ p.mapped, d ∈ chunks b' (q.hdrObjSize b') := by
  by_cases hdc : d = c
  · refine ⟨b, h.page, ?_⟩
    rw [h.objSize hs h.page, h.header, hdc]
    exact h.chunk
  · obtain ⟨b', hb', hchunk⟩ := hs.owned d ((h.live d hdc).mp hd)
    exact ⟨b', hb', (h.objSize hs hb').symm ▸ hchunk⟩

/-- The shape is kept, with the new list of the one cache. -/
theorem shape (h : Moved p q live live' b c i) (hs : PoolShape p live lists)
    (hl : ∀ d, d ∈ l ↔ (d = c ∨ d ∈ lists i) ∧ d ∉ live') (hchain : Chain q.next (ptr (q.freeList i)) l) :
    PoolShape q live' (Function.update lists i l) := by
  refine ⟨h.sizes.trans hs.sizes, h.vptr ▸ hs.vptr_aligned, h.vptr ▸ hs.base_le, h.vptr ▸ hs.vptr_le, ?_,
    fun b' hb' => h.headerAt hs (h.mapped ▸ hb'), fun k hk => ?_, fun k hk d => ?_, fun d hd => ?_, ?_, h.used⟩
  · rw [h.mapped, h.vptr]
    exact hs.page
  · by_cases hne : k = i
    · subst hne
      rw [Function.update_self]
      exact hchain
    · rw [Function.update_of_ne hne]
      exact h.chain hs hne hk
  · rw [h.mapped]
    by_cases hne : k = i
    · subst hne
      rw [Function.update_self, hl d]
      exact h.listed_self hs
    · rw [Function.update_of_ne hne]
      exact h.listed_other hs hne hk
  · rw [h.mapped]
    exact h.owned hs hd
  · rw [h.pages, h.mapped, hs.pages]

end Moved

namespace PoolShape

/-- The head of a list is handed out. -/
theorem popChunk_moved (hs : PoolShape p live lists) (hi : i < kmemCacheCount) (hc : c ∈ lists i) (hhead : p.freeList i = c) :
    Moved p (Kmalloc.popChunk i p).2 live (insert c live) (pageOf c) c i := by
  obtain ⟨hpage, hsize, hchunk, hlive⟩ := hs.mem_list hi hc
  obtain ⟨k, hk, hhdr⟩ := hs.header _ hpage
  obtain rfl : k = i := cacheSizes_inj hk hi (hhdr.objSize.symm.trans hsize)
  refine ⟨hpage, hi, hsize, hchunk, fun d hd => by simp [hd], rfl, rfl, rfl, rfl, ?_, ?_, ?_, ?_⟩
  · rw [Finset.card_insert_of_notMem hlive, ← hs.used]
    rfl
  · intro w _ hw
    dsimp only [Kmalloc.popChunk]
    rw [hhead]
    exact Function.update_of_ne hw _ _
  · have hlen := length_freeChunks_insert (cacheSizes_pos hi) (mem_freeChunks.mpr ⟨hchunk, hlive⟩)
    have hle : (freeChunks live (pageOf c) (cacheSizes k)).length < 2 ^ 16 :=
      length_freeChunks_le.trans_lt (chunkCount_lt hi)
    have hval : (Kmalloc.popChunk k p).2.hdrFreeCount (pageOf c) =
        (p.hdrFreeCount (pageOf c) + (2 ^ 16 - 1)) % 2 ^ 16 := by
      dsimp only [Kmalloc.popChunk]
      rw [hhead]
      exact Function.update_self _ _ _
    rw [hval, hhdr.free]
    omega
  · intro k' hk'
    exact Function.update_of_ne hk' _ _

theorem popChunk (hs : PoolShape p live lists) {rest : List ℕ} (hi : i < kmemCacheCount)
    (hl : lists i = c :: rest) : (Kmalloc.popChunk i p).1 = c ∧
      PoolShape (Kmalloc.popChunk i p).2 (insert c live) (Function.update lists i rest) := by
  have hchain := hs.chain i hi
  rw [hl] at hchain
  obtain ⟨hhead, hrest⟩ := hchain
  obtain ⟨hhead, -⟩ := ptr_eq_some.mp hhead
  have hcmem : c ∈ lists i := by simp [hl]
  have hdvd := (hs.page _ (hs.mem_list hi hcmem).1).1
  have hnodup : c ∉ rest := (List.nodup_cons.mp (hl ▸ (hs.chain i hi).nodup)).1
  refine ⟨hhead, (hs.popChunk_moved hi hcmem hhead).shape hs (fun d => ?_) ?_⟩
  · simp only [hl, List.mem_cons, Finset.mem_insert, not_or]
    constructor
    · intro hd
      have hdc : d ≠ c := fun he => hnodup (he ▸ hd)
      exact ⟨.inr (.inr hd), hdc, (hs.mem_list hi (hl ▸ List.mem_cons_of_mem _ hd)).2.2.2⟩
    · rintro ⟨hd | hd | hd, hne, -⟩
      exacts [absurd hd hne, absurd hd hne, hd]
  · have hlist : (Kmalloc.popChunk i p).2.freeList i = p.mem c := by
      dsimp only [Kmalloc.popChunk]
      rw [hhead]
      exact Function.update_self _ _ _
    rw [hlist]
    refine hrest.congr fun d hd => ?_
    have hne : d ≠ pageOf c + 4 :=
      hs.list_ne_header hi (hl ▸ List.mem_cons_of_mem _ hd) hdvd (by decide)
    dsimp only [Kmalloc.popChunk, Pool.next]
    rw [hhead]
    exact congrArg ptr (Function.update_of_ne hne _ _)

theorem live_pos (hs : PoolShape p live lists) (hc : c ∈ live) : 0 < c := by
  obtain ⟨hpage, i, -, -, hchunk⟩ := hs.mem_live hc
  have hbase := (hs.page _ hpage).2.1
  have hbounds := chunk_bounds hchunk
  simp only [kcpoolVirtBase] at hbase
  omega

/-- A live chunk is taken back. -/
theorem pushChunk_moved (hs : PoolShape p live lists) (hi : i < kmemCacheCount) (hc : c ∈ live)
    (hsize : p.hdrObjSize (pageOf c) = cacheSizes i) :
    Moved p (Kmalloc.pushChunk i c p) live (live.erase c) (pageOf c) c i := by
  obtain ⟨hpage, k, hk, hhdr, hchunk⟩ := hs.mem_live hc
  obtain rfl : k = i := cacheSizes_inj hk hi (hhdr.objSize.symm.trans hsize)
  have hdvd := (hs.page _ hpage).1
  have hcell : c ≠ pageOf c + 4 := chunk_ne_header hdvd hdvd hi hchunk (by decide)
  refine ⟨hpage, hi, hsize, hchunk, fun d hd => by simp [hd], rfl, rfl, rfl, rfl, ?_, ?_, ?_, ?_⟩
  · have hused : (Kmalloc.pushChunk k c p).usedCount = p.usedCount - 1 := rfl
    rw [hused, Finset.card_erase_of_mem hc, hs.used]
  · intro w hwc hw
    exact (Function.update_of_ne hw _ _).trans (Function.update_of_ne hwc _ _)
  · have hmem : c ∈ freeChunks (live.erase c) (pageOf c) (cacheSizes k) :=
      mem_freeChunks.mpr ⟨hchunk, by simp⟩
    have hlen := length_freeChunks_insert (cacheSizes_pos hi) hmem
    rw [Finset.insert_erase hc] at hlen
    have hle : (freeChunks (live.erase c) (pageOf c) (cacheSizes k)).length < 2 ^ 16 :=
      length_freeChunks_le.trans_lt (chunkCount_lt hi)
    have hval : (Kmalloc.pushChunk k c p).hdrFreeCount (pageOf c) =
        (p.hdrFreeCount (pageOf c) + 1) % 2 ^ 16 := by
      refine (Function.update_self _ _ _).trans ?_
      exact congrArg (fun n => (n + 1) % 2 ^ 16) (Function.update_of_ne hcell.symm _ _)
    rw [hval, hhdr.free]
    omega
  · intro k' hk'
    exact Function.update_of_ne hk' _ _

theorem pushChunk (hs : PoolShape p live lists) (hi : i < kmemCacheCount) (hc : c ∈ live)
    (hsize : p.hdrObjSize (pageOf c) = cacheSizes i) :
    PoolShape (Kmalloc.pushChunk i c p) (live.erase c) (Function.update lists i (c :: lists i)) := by
  have hmoved := hs.pushChunk_moved hi hc hsize
  have hdvd := (hs.page _ hmoved.page).1
  have hcell : c ≠ pageOf c + 4 := chunk_ne_header hdvd hdvd hi hmoved.chunk (by decide)
  refine hmoved.shape hs (fun d => ?_) ?_
  · simp only [List.mem_cons, Finset.mem_erase, not_and]
    constructor
    · rintro (rfl | hd)
      · exact ⟨.inl rfl, fun h => absurd rfl h⟩
      · exact ⟨.inr hd, fun _ => (hs.mem_list hi hd).2.2.2⟩
    · exact And.left
  · have hlist : (Kmalloc.pushChunk i c p).freeList i = c := Function.update_self _ _ _
    have hlink : (Kmalloc.pushChunk i c p).next c = ptr (p.freeList i) :=
      congrArg ptr ((Function.update_of_ne hcell _ _).trans (Function.update_self _ _ _))
    rw [hlist]
    refine ⟨ptr_of_pos (hs.live_pos hc), ?_⟩
    rw [hlink]
    refine (hs.chain i hi).congr fun d hd => ?_
    have hdc : d ≠ c := fun he => (hs.mem_list hi hd).2.2.2 (he ▸ hc)
    have hne : d ≠ pageOf c + 4 := hs.list_ne_header hi hd hdvd (by decide)
    exact congrArg ptr ((Function.update_of_ne hne _ _).trans (Function.update_of_ne hdc _ _))

/-- A live object lies in its page, behind the header. -/
theorem live_bounds (hs : PoolShape p live lists) (hc : c ∈ live) : pageOf c ∈ p.mapped ∧
    pageOf c + cpoolHdrSize ≤ c ∧ c + ksize p c ≤ pageOf c + pageSize := by
  obtain ⟨hpage, i, -, hhdr, hchunk⟩ := hs.mem_live hc
  rw [ksize, if_neg (hs.live_pos hc).ne', hhdr.objSize]
  exact ⟨hpage, chunk_bounds hchunk⟩

/-- Live objects do not overlap. -/
theorem live_disjoint {d : ℕ} (hs : PoolShape p live lists) (hc : c ∈ live) (hd : d ∈ live) (hne : c ≠ d) :
    c + ksize p c ≤ d ∨ d + ksize p d ≤ c := by
  obtain ⟨hp, h₁, h₂⟩ := hs.live_bounds hc
  obtain ⟨hq, h₃, h₄⟩ := hs.live_bounds hd
  by_cases hpage : pageOf c = pageOf d
  · obtain ⟨-, i, hi, hhdr, hchunk⟩ := hs.mem_live hc
    obtain ⟨-, k, hk, hhdr', hchunk'⟩ := hs.mem_live hd
    rw [← hpage] at hhdr' hchunk'
    obtain rfl : k = i := cacheSizes_inj hk hi (hhdr'.objSize.symm.trans hhdr.objSize)
    rw [ksize, if_neg (hs.live_pos hc).ne', ksize, if_neg (hs.live_pos hd).ne', ← hpage, hhdr.objSize]
    exact chunk_disjoint hchunk hchunk' hne
  · have hdvd := (hs.page _ hp).1
    have hdvd' := (hs.page _ hq).1
    simp only [pageSize, cpoolHdrSize] at *
    omega

/-- No cell of a live object is a cell of a header. -/
theorem cell_ne_header (hs : PoolShape p live lists) (hc : c ∈ live) (ha : c ≤ a) (ha' : a < c + ksize p c)
    (hb : pageSize ∣ b) (hj : j < cpoolHdrSize) : a ≠ b + j := by
  obtain ⟨hpage, h₁, h₂⟩ := hs.live_bounds hc
  have hdvd := (hs.page _ hpage).1
  simp only [pageSize, cpoolHdrSize] at *
  omega

/-- No cell of a live object is the start of another chunk. -/
theorem cell_ne_chunk (hs : PoolShape p live lists) (hc : c ∈ live) (ha : c ≤ a) (ha' : a < c + ksize p c)
    {d k : ℕ} (hk : k < kmemCacheCount) (hd : pageOf d ∈ p.mapped) (hsize : p.hdrObjSize (pageOf d) = cacheSizes k)
    (hchunk : d ∈ chunks (pageOf d) (cacheSizes k)) (hne : d ≠ c) : a ≠ d := by
  obtain ⟨hpage, i, hi, hhdr, hchunk'⟩ := hs.mem_live hc
  rw [ksize, if_neg (hs.live_pos hc).ne', hhdr.objSize] at ha'
  have hbounds := chunk_bounds hchunk'
  have hbounds' := chunk_bounds hchunk
  have hdvd := (hs.page _ hpage).1
  have hdvd' := (hs.page _ hd).1
  have hpos := cacheSizes_pos hk
  rintro rfl
  by_cases hsame : pageOf a = pageOf c
  · obtain rfl : k = i := cacheSizes_inj hk hi (by rw [← hsize, hsame, hhdr.objSize])
    rw [hsame] at hchunk
    have hdisj := chunk_disjoint hchunk' hchunk hne.symm
    omega
  · simp only [pageSize, cpoolHdrSize] at *
    omega

/-- A store inside a live object does not reach a header. -/
theorem store_header (hs : PoolShape p live lists) (hc : c ∈ live) (ha : c ≤ a)
    (ha' : a < c + ksize p c) (hb : b ∈ p.mapped) (hj : j < cpoolHdrSize) :
    (p.store a v).mem (b + j) = p.mem (b + j) :=
  Function.update_of_ne (hs.cell_ne_header hc ha ha' (hs.page b hb).1 hj).symm _ _

theorem store_ksize {d : ℕ} (hs : PoolShape p live lists) (hc : c ∈ live) (ha : c ≤ a) (ha' : a < c + ksize p c)
    (hd : d ∈ live) : ksize (p.store a v) d = ksize p d := by
  have hobj : (p.store a v).mem (pageOf d + 0) = p.mem (pageOf d + 0) :=
    hs.store_header hc ha ha' (hs.mem_live hd).1 (by decide)
  unfold ksize Pool.hdrObjSize
  rw [← Nat.add_zero (pageOf d), hobj]

/-- A store inside a live object touches neither a header nor a list. -/
theorem write (hs : PoolShape p live lists) (hc : c ∈ live) (ha : c ≤ a)
    (ha' : a < c + ksize p c) : PoolShape (p.store a v) live lists := by
  have hcell : ∀ b ∈ p.mapped, ∀ k < 8, (p.store a v).mem (b + k) = p.mem (b + k) :=
    fun b hb k hk => hs.store_header hc ha ha' hb hk
  have hobj : ∀ b ∈ p.mapped, (p.store a v).hdrObjSize b = p.hdrObjSize b := fun b hb =>
    hcell b hb 0 (by decide)
  refine ⟨hs.sizes, hs.vptr_aligned, hs.base_le, hs.vptr_le, hs.page, ?_, ?_, ?_, ?_, hs.pages, hs.used⟩
  · intro b hb
    obtain ⟨k, hk, hh⟩ := hs.header b hb
    exact ⟨k, hk, (hobj b hb).trans hh.objSize, (hcell b hb 6 (by decide)).trans hh.total,
      (hcell b hb 4 (by decide)).trans hh.free⟩
  · intro k hk
    refine (hs.chain k hk).congr fun d hd => congrArg ptr (Function.update_of_ne ?_ _ _)
    obtain ⟨hpage', hsize', hchunk', hlive'⟩ := hs.mem_list hk hd
    have hdc : d ≠ c := fun he => hlive' (he ▸ hc)
    exact (hs.cell_ne_chunk hc ha ha' hk hpage' hsize' hchunk' hdc).symm
  · intro k hk d
    rw [hs.listed k hk d]
    refine exists_congr fun b => and_congr_right fun hb => ?_
    rw [hobj b hb]
  · intro d hd
    obtain ⟨b, hb, hchunk'⟩ := hs.owned d hd
    exact ⟨b, hb, (hobj b hb).symm ▸ hchunk'⟩

theorem live_lt_vptr (hs : PoolShape p live lists) (hc : c ∈ live) : c < p.vptr := by
  obtain ⟨hpage, i, hi, -, hchunk⟩ := hs.mem_live hc
  have hle := (hs.page _ hpage).2.2
  have hbounds := chunk_bounds hchunk
  have hpos := cacheSizes_pos hi
  omega

theorem list_lt_vptr (hs : PoolShape p live lists) (hi : i < kmemCacheCount) (hc : c ∈ lists i) :
    c < p.vptr := by
  obtain ⟨hpage, -, hchunk, -⟩ := hs.mem_list hi hc
  have hle := (hs.page _ hpage).2.2
  have hbounds := chunk_bounds hchunk
  have hpos := cacheSizes_pos hi
  omega

end PoolShape

/-- What `cpool_refill` has done when it returns. -/
structure Refilled (i : ℕ) (p q : Pool) : Prop where
  zone : p.vptr + pageSize ≤ kcpoolVirtMax
  sizes : q.objSize = p.objSize
  vptr : q.vptr = p.vptr + pageSize
  pageCount : q.pageCount = p.pageCount + 1
  usedCount : q.usedCount = p.usedCount
  mapped : q.mapped = insert p.vptr p.mapped
  old : ∀ w < p.vptr, q.mem w = p.mem w
  objSize : q.hdrObjSize p.vptr = cacheSizes i
  total : q.hdrTotalCount p.vptr = cpoolDataSize / cacheSizes i
  free : q.hdrFreeCount p.vptr = cpoolDataSize / cacheSizes i
  chain : Chain q.next (ptr (q.freeList i)) (chunks p.vptr (cacheSizes i))
  other : ∀ k, k ≠ i → q.freeList k = p.freeList k

theorem cpoolRefill_ok {ok : Bool} (hs : PoolShape p live lists) (hi : i < kmemCacheCount)
    (hok : cpoolRefill ok i p = .ok q) : Refilled i p q := by
  have hmax := hs.vptr_le
  have hpos := cacheSizes_pos hi
  have hadd : add32 p.vptr pageSize = p.vptr + pageSize := by
    refine add32_of_lt ?_
    simp only [kcpoolVirtMax, pageSize, wordSize] at hmax ⊢
    omega
  dsimp only [cpoolRefill] at hok
  obtain ⟨hzone, hok⟩ := ite_kpanic_eq_ok.mp hok
  obtain ⟨-, hok⟩ := ite_kpanic_eq_ok.mp hok
  rw [hadd] at hzone hok
  rw [hs.sizes, Nat.mod_eq_of_lt (chunkCount_lt hi)] at hok
  have hnpos := chunkCount_pos hi
  obtain ⟨mem₀, hmem₀⟩ : ∃ mem₀, mem₀ = (((p.store p.vptr (cacheSizes i)).store (p.vptr + 4)
    (cpoolDataSize / cacheSizes i)).store (p.vptr + 6) (cpoolDataSize / cacheSizes i)).mem := ⟨_, rfl⟩
  rw [← hmem₀] at hok
  obtain rfl := Except.ok.inj hok
  have hframe : ∀ w < p.vptr + cpoolHdrSize, threadChunks (cacheSizes i) (cpoolDataSize / cacheSizes i)
      (p.vptr + cpoolHdrSize) mem₀ w = mem₀ w := fun w hw => threadChunks_frame hpos (.inl hw)
  have hchain : Chain (fun c => ptr (threadChunks (cacheSizes i) (cpoolDataSize / cacheSizes i)
      (p.vptr + cpoolHdrSize) mem₀ c))
      (ptr (if 0 < cpoolDataSize / cacheSizes i then p.vptr + cpoolHdrSize else 0))
      (chunks p.vptr (cacheSizes i)) := threadChunks_chain hpos (by simp [cpoolHdrSize])
  refine ⟨Nat.le_of_not_lt hzone, rfl, rfl, rfl, rfl, rfl, ?_, ?_, ?_, ?_, ?_, ?_⟩
  · intro w hw
    refine (hframe w (by omega)).trans ?_
    rw [hmem₀]
    simp only [Pool.store]
    rw [Function.update_of_ne (by omega), Function.update_of_ne (by omega),
      Function.update_of_ne (by omega)]
  · refine (hframe _ (by simp [cpoolHdrSize])).trans ?_
    simp [hmem₀, Pool.store]
  · refine (hframe _ (by simp [cpoolHdrSize])).trans ?_
    simp [hmem₀, Pool.store]
  · refine (hframe _ (by simp [cpoolHdrSize])).trans ?_
    simp [hmem₀, Pool.store]
  · rw [if_pos hnpos] at hchain
    change Chain _ (ptr (Function.update p.freeList i (p.vptr + cpoolHdrSize) i)) _
    rw [Function.update_self]
    exact hchain
  · intro k hk
    exact Function.update_of_ne hk _ _

namespace PoolShape

theorem refill (hs : PoolShape p live lists) (hi : i < kmemCacheCount) (hl : lists i = [])
    (hr : Refilled i p q) :
    PoolShape q live (Function.update lists i (chunks p.vptr (cacheSizes i))) := by
  have hnew : p.vptr ∉ p.mapped := fun h => by
    have := (hs.page _ h).2.2
    simp only [pageSize] at this
    omega
  have hfree : freeChunks live p.vptr (cacheSizes i) = chunks p.vptr (cacheSizes i) := by
    refine freeChunks_eq_chunks fun c hc hlive => ?_
    have := hs.live_lt_vptr hlive
    have := chunk_bounds hc
    omega
  have hcell : ∀ b ∈ p.mapped, ∀ k < 8, q.mem (b + k) = p.mem (b + k) := by
    intro b hb k hk
    have := (hs.page b hb).2.2
    simp only [pageSize] at this
    exact hr.old _ (by omega)
  have hobj : ∀ b ∈ p.mapped, q.hdrObjSize b = p.hdrObjSize b := fun b hb =>
    hcell b hb 0 (by decide)
  refine ⟨hr.sizes.trans hs.sizes, ?_, ?_, hr.vptr ▸ hr.zone, ?_, ?_, ?_, ?_, ?_, ?_,
    hr.usedCount.trans hs.used⟩
  · rw [hr.vptr]
    exact (Nat.dvd_add_right hs.vptr_aligned).mpr dvd_rfl
  · rw [hr.vptr]
    exact hs.base_le.trans (Nat.le_add_right _ _)
  · intro b hb
    rw [hr.vptr]
    rcases Finset.mem_insert.mp (hr.mapped ▸ hb) with rfl | hb
    · exact ⟨hs.vptr_aligned, hs.base_le, le_rfl⟩
    · obtain ⟨h₁, h₂, h₃⟩ := hs.page b hb
      exact ⟨h₁, h₂, h₃.trans (Nat.le_add_right _ _)⟩
  · intro b hb
    rcases Finset.mem_insert.mp (hr.mapped ▸ hb) with rfl | hb
    · refine ⟨i, hi, hr.objSize, hr.total, ?_⟩
      rw [hfree, length_chunks]
      exact hr.free
    · obtain ⟨k, hk, hh⟩ := hs.header b hb
      exact ⟨k, hk, (hobj b hb).trans hh.objSize, (hcell b hb 6 (by decide)).trans hh.total,
        (hcell b hb 4 (by decide)).trans hh.free⟩
  · intro k hk
    by_cases hki : k = i
    · subst hki
      rw [Function.update_self]
      exact hr.chain
    · rw [Function.update_of_ne hki, hr.other k hki]
      exact (hs.chain k hk).congr fun c hc => congrArg ptr (hr.old c (hs.list_lt_vptr hk hc))
  · intro k hk c
    have hother : (∃ b ∈ p.mapped, q.hdrObjSize b = cacheSizes k ∧
        c ∈ freeChunks live b (cacheSizes k)) ↔ c ∈ lists k := by
      rw [hs.listed k hk c]
      refine exists_congr fun b => and_congr_right fun hb => ?_
      rw [hobj b hb]
    rw [hr.mapped]
    simp only [Finset.mem_insert, exists_eq_or_imp, hr.objSize, hother]
    by_cases hki : k = i
    · subst hki
      rw [Function.update_self, hfree, hl]
      simp
    · have hne : cacheSizes i ≠ cacheSizes k := fun he => hki (cacheSizes_inj hk hi he.symm)
      rw [Function.update_of_ne hki]
      simp [hne]
  · intro c hc
    obtain ⟨b, hb, hchunk⟩ := hs.owned c hc
    exact ⟨b, hr.mapped ▸ Finset.mem_insert_of_mem hb, (hobj b hb).symm ▸ hchunk⟩
  · rw [hr.pageCount, hr.mapped, Finset.card_insert_of_notMem hnew, hs.pages]

end PoolShape

/-- What the unlinking loop leaves from the link `cur` on, when the links `rest` follow. -/
structure Unlinked (idx base : ℕ) (cur : Option ℕ) (rest : List ℕ) (p q : Pool) : Prop where
  same : q = { p with mem := q.mem, freeList := q.freeList }
  chain : Chain q.next (ptr (readLink idx q cur)) (rest.filter fun c => decide (pageOf c ≠ base))
  mem : ∀ w, cur ≠ some w → w ∉ rest → q.mem w = p.mem w
  other : ∀ k, k ≠ idx → q.freeList k = p.freeList k
  head : cur ≠ none → q.freeList idx = p.freeList idx

/-- The loop makes one round for each chunk of the list and then ends. -/
theorem unlinkPage_eq {idx base : ℕ} {cur : Option ℕ} {rest : List ℕ}
    (hchain : Chain p.next (ptr (readLink idx p cur)) rest) (hcur : ∀ a ∈ cur, a ∉ rest) :
    ∃ q, Unlinked idx base cur rest p q ∧ ∀ fuel,
      unlinkPage idx base fuel cur p = if rest.length < fuel then .ok q else .error .spin := by
  induction rest generalizing cur p with
  | nil =>
    refine ⟨p, ⟨rfl, hchain, fun _ _ _ => rfl, fun _ _ => rfl, fun _ => rfl⟩, fun fuel => ?_⟩
    cases fuel with
    | zero => simp [unlinkPage]
    | succ fuel => simp [unlinkPage, ptr_eq_none.mp hchain]
  | cons c rest ih =>
    obtain ⟨hhead, hrest⟩ := hchain
    obtain ⟨hhead, hpos⟩ := ptr_eq_some.mp hhead
    have hnodup : c ∉ rest := by
      have : Chain p.next (ptr c) (c :: rest) := ⟨ptr_of_pos hpos, hrest⟩
      exact (List.nodup_cons.mp this.nodup).1
    have hcurc : cur ≠ some c := fun he => hcur c he List.mem_cons_self
    have hcur' : ∀ a ∈ cur, a ∉ rest := fun a ha hmem => hcur a ha (List.mem_cons_of_mem _ hmem)
    by_cases hpage : pageOf c = base
    · -- the chunk is cut out: the link behind it is stored where its own link was read
      have hwrite : readLink idx (writeLink idx p cur (p.mem c)) cur = p.mem c := by
        cases cur <;> simp [readLink, writeLink, Pool.setFreeList, Pool.store]
      have hmem : ∀ w, cur ≠ some w → (writeLink idx p cur (p.mem c)).mem w = p.mem w := by
        intro w hw
        cases cur with
        | none => rfl
        | some a => exact Function.update_of_ne (fun he : w = a => hw (congrArg some he.symm)) _ _
      have hchain' : Chain (writeLink idx p cur (p.mem c)).next
          (ptr (readLink idx (writeLink idx p cur (p.mem c)) cur)) rest := by
        rw [hwrite]
        exact hrest.congr fun d hd => congrArg ptr (hmem d fun he => hcur' d he hd)
      obtain ⟨q, hq, heq⟩ := ih hchain' hcur'
      refine ⟨q, ⟨?_, ?_, ?_, ?_, ?_⟩, fun fuel => ?_⟩
      · rw [hq.same]
        cases cur <;> rfl
      · rw [List.filter_cons_of_neg (by simpa using hpage)]
        exact hq.chain
      · intro w hw hwmem
        rw [hq.mem w hw fun h => hwmem (List.mem_cons_of_mem _ h), hmem w hw]
      · intro k hk
        rw [hq.other k hk]
        cases cur with
        | none => exact Function.update_of_ne hk _ _
        | some a => rfl
      · intro hne
        rw [hq.head hne]
        cases cur with
        | none => exact absurd rfl hne
        | some a => rfl
      · cases fuel with
        | zero => simp [unlinkPage]
        | succ fuel =>
          have hc0 : c ≠ 0 := by omega
          rw [unlinkPage]
          simp only [hhead, hc0, hpage, ↓reduceIte, heq, List.length_cons, Nat.add_lt_add_iff_right]
    · have hchain' : Chain p.next (ptr (readLink idx p (some c))) rest := hrest
      obtain ⟨q, hq, heq⟩ := ih hchain' fun a ha => Option.some.inj ha ▸ hnodup
      have hread : readLink idx q cur = c := by
        rw [← hhead]
        cases cur with
        | none => exact hq.head (by simp)
        | some a =>
          refine hq.mem a (fun he => hcurc ?_) (hcur' a rfl)
          rw [Option.some.inj he]
      refine ⟨q, ⟨hq.same, ?_, ?_, hq.other, fun _ => hq.head (by simp)⟩, fun fuel => ?_⟩
      · rw [List.filter_cons_of_pos (by simpa using hpage), hread]
        exact ⟨ptr_of_pos hpos, hq.chain⟩
      · intro w _ hwmem
        refine hq.mem w (fun he => hwmem ?_) fun h => hwmem (List.mem_cons_of_mem _ h)
        rw [Option.some.inj he]
        exact List.mem_cons_self
      · cases fuel with
        | zero => simp [unlinkPage]
        | succ fuel =>
          have hc0 : c ≠ 0 := by omega
          rw [unlinkPage]
          simp only [hhead, hc0, hpage, ↓reduceIte, heq, List.length_cons, Nat.add_lt_add_iff_right]

namespace PoolShape

/-- Taking a page none of whose chunks is live off its list and unmapping it. -/
theorem unmap (hs : PoolShape p live lists) (hi : i < kmemCacheCount) (hb : b ∈ p.mapped)
    (hhdr : p.hdrObjSize b = cacheSizes i) (hfree : ∀ c ∈ chunks b (cacheSizes i), c ∉ live)
    (hu : Unlinked i b none (lists i) p q) :
    PoolShape { q with mapped := q.mapped.erase b, pageCount := q.pageCount - 1 } live
      (Function.update lists i ((lists i).filter fun c => decide (pageOf c ≠ b))) := by
  have hmem : ∀ w, w ∉ lists i → q.mem w = p.mem w := fun w hw => hu.mem w (by simp) hw
  have hcell : ∀ b' ∈ p.mapped, ∀ k < 8, q.mem (b' + k) = p.mem (b' + k) := by
    intro b' hb' k hk
    exact hmem _ fun h => hs.list_ne_header hi h (hs.page b' hb').1 hk rfl
  have hobj : ∀ b' ∈ p.mapped, q.mem b' = p.hdrObjSize b' := fun b' hb' =>
    hcell b' hb' 0 (by decide)
  have hmapped : q.mapped = p.mapped := by rw [hu.same]
  have hpages : q.pageCount = p.pageCount := by rw [hu.same]
  have hvptr : q.vptr = p.vptr := by rw [hu.same]
  refine ⟨(congrArg Pool.objSize hu.same).trans hs.sizes, hvptr ▸ hs.vptr_aligned,
    hvptr ▸ hs.base_le, hvptr ▸ hs.vptr_le, ?_, ?_, ?_, ?_, ?_, ?_,
    (congrArg Pool.usedCount hu.same).trans hs.used⟩
  · intro b' hb'
    rw [hmapped] at hb'
    simp only [hvptr]
    exact hs.page b' (Finset.mem_of_mem_erase hb')
  · intro b' hb'
    rw [hmapped] at hb'
    have hb' := Finset.mem_of_mem_erase hb'
    obtain ⟨k, hk, hh⟩ := hs.header b' hb'
    exact ⟨k, hk, (hobj b' hb').trans hh.objSize, (hcell b' hb' 6 (by decide)).trans hh.total,
      (hcell b' hb' 4 (by decide)).trans hh.free⟩
  · intro k hk
    by_cases hki : k = i
    · subst hki
      rw [Function.update_self]
      exact hu.chain
    · rw [Function.update_of_ne hki]
      simp only [hu.other k hki]
      refine (hs.chain k hk).congr fun d hd => congrArg ptr (hmem d ?_)
      exact hs.listed_ne hk hi hki hd
  · intro k hk c
    rw [hmapped]
    simp only [Finset.mem_erase, Pool.hdrObjSize]
    by_cases hki : k = i
    · subst hki
      rw [Function.update_self, List.mem_filter, hs.listed k hk c, decide_eq_true_iff]
      constructor
      · rintro ⟨⟨b', hb', hsize, hc⟩, hne⟩
        rw [hs.pageOf_chunk hb' hk (mem_freeChunks.mp hc).1] at hne
        exact ⟨b', ⟨hne, hb'⟩, (hobj b' hb').trans hsize, hc⟩
      · rintro ⟨b', ⟨hne, hb'⟩, hsize, hc⟩
        refine ⟨⟨b', hb', (hobj b' hb').symm.trans hsize, hc⟩, ?_⟩
        rwa [hs.pageOf_chunk hb' hk (mem_freeChunks.mp hc).1]
    · rw [Function.update_of_ne hki, hs.listed k hk c]
      constructor
      · rintro ⟨b', hb', hsize, hc⟩
        have hne : b' ≠ b := by
          rintro rfl
          exact hki (cacheSizes_inj hk hi (hsize.symm.trans hhdr))
        exact ⟨b', ⟨hne, hb'⟩, (hobj b' hb').trans hsize, hc⟩
      · rintro ⟨b', ⟨-, hb'⟩, hsize, hc⟩
        exact ⟨b', hb', (hobj b' hb').symm.trans hsize, hc⟩
  · intro c hc
    obtain ⟨b', hb', hchunk⟩ := hs.owned c hc
    have hne : b' ≠ b := by
      rintro rfl
      rw [hhdr] at hchunk
      exact hfree c hchunk hc
    refine ⟨b', ?_, ?_⟩
    · rw [hmapped]
      exact Finset.mem_erase.mpr ⟨hne, hb'⟩
    · change c ∈ chunks b' (q.mem b')
      rw [hobj b' hb']
      exact hchunk
  · simp only [hpages, hmapped, Finset.card_erase_of_mem hb, hs.pages]

end PoolShape

end HekaOS.Kmalloc
