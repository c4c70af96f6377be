import HekaOS.KernelTriples
import HekaOS.KmemHeapInvariant

/-!
# Heap requests near the word size

`kmem_alloc` rounds its request to eight bytes and `kmem_heap_grow` rounds to pages, both in 32 bits
and before any limit is checked. A request for which the rounding does not wrap is honoured in full;
one for which it wraps is served with less, as long as there is anything to serve it with.
-/

namespace HekaOS.KmemDynAlloc
open MachineWord KernelMemory KernelTriples PointerChain

variable {h h' : Heap} {b : Block} {bs : List Block} {fuel size nbytes : ℕ} {ok : ℕ → Bool}

theorem align8_eq (h : size ≤ wordSize - 8) : align8 size = (size + 7) / 8 * 8 := by
  have hsum : size + 7 < wordSize := by
    simp only [wordSize] at h ⊢
    omega
  rw [align8, add32_of_lt hsum]
  exact clearLow_eq (by decide) hsum

/-- Rounding up to eight bytes wraps to zero. -/
theorem align8_wraps (h₁ : wordSize - 8 < size) (h₂ : size < wordSize) : align8 size = 0 := by
  have hsum : add32 size 7 / 2 ^ 3 = 0 := by
    simp only [add32, wordSize] at h₁ h₂ ⊢
    omega
  rw [align8, clearLow_eq (by decide) (add32_lt _ _), hsum, Nat.zero_mul]

theorem growPages_eq (nbytes : ℕ) : growPages nbytes = max 1 ((nbytes + 4111) % wordSize / 4096) := by
  have hsum : nbytes + headerSize + pageSize - 1 = nbytes + 4111 := by
    simp only [headerSize, pageSize]
    omega
  dsimp only [growPages]
  rw [hsum]
  by_cases hnone : (nbytes + 4111) % wordSize / pageSize = 0
  · rw [if_pos hnone]
    simp only [pageSize] at hnone
    omega
  · rw [if_neg hnone]
    simp only [pageSize] at hnone ⊢
    omega

/-- The pages that a request for growth asks for hold the bytes of the request. -/
theorem growPages_enough (h : nbytes ≤ wordSize - 4112) : nbytes ≤ pageSize * growPages nbytes := by
  rw [growPages_eq]
  simp only [wordSize, pageSize] at h ⊢
  omega

/-- Rounding up to pages wraps to one page at most. -/
theorem growPages_wraps (h₁ : wordSize - 4112 < nbytes) (h₂ : nbytes < wordSize) : growPages nbytes = 1 := by
  rw [growPages_eq]
  simp only [wordSize] at h₁ h₂ ⊢
  omega

/-- The first-fit search with enough fuel. -/
theorem Shape.firstFit_eq (hs : Shape h bs) (hfuel : bs.length < fuel) (size : ℕ) :
    firstFit fuel h size = .ok ((firstFree size bs).map Block.addr) := by
  have hlength : (bs.map Block.addr).length < fuel := by rwa [List.length_map]
  rw [firstFit, hs.chain.find_eq hlength, hs.find_fits]
  rfl

theorem allocPages_of_frames {k vaddr : ℕ} (hk : h.mapped + k ≤ physRegionFrames) :
    allocPages (fun _ => true) k vaddr h = .ok { h with mapped := h.mapped + k } := by
  induction k generalizing vaddr h with
  | zero => rfl
  | succ k ih =>
    have hframe : h.mapped < physRegionFrames := by omega
    have hrest : { h with mapped := h.mapped + 1 }.mapped + k ≤ physRegionFrames := by
      dsimp only
      omega
    rw [allocPages, if_pos (by simp [hframe]), ih hrest]
    simp only [Nat.add_assoc, Nat.add_comm 1 k]

/-- With enough frames left, a heap can grow. -/
theorem Shape.grow_frames (hs : Shape h bs) (hframes : h.mapped + growPages nbytes ≤ physRegionFrames)
    (hfuel : bs.length < fuel) : ∃ h', kmemHeapGrow fuel (fun _ => true) nbytes h = .ok h' := by
  have halloc : allocPages (fun _ => true) (growPages nbytes) h.heapEnd h = _ := allocPages_of_frames hframes
  have hpages := hs.pages
  simp only [physRegionFrames, kheapVirtBase, pageSize] at hframes hpages
  have htotal : growPages nbytes * pageSize % wordSize = growPages nbytes * 4096 := by
    apply Nat.mod_eq_of_lt
    simp only [wordSize, pageSize]
    omega
  have hend : add32 h.heapEnd (growPages nbytes * 4096) = h.heapEnd + growPages nbytes * 4096 := by
    apply add32_of_lt
    simp only [wordSize]
    omega
  have hlimit : ¬h.heapEnd + growPages nbytes * 4096 > kheapVirtMax := by
    simp only [kheapVirtMax]
    omega
  have hlength : (bs.map Block.addr).length < fuel := by rwa [List.length_map]
  unfold kmemHeapGrow
  dsimp only
  rw [htotal, hend, if_neg hlimit, halloc]
  have hwalk : walkLast (Heap.next { h with mapped := h.mapped + growPages nbytes }) fuel none (ptr h.head) =
      some ((bs.map Block.addr).getLast?.or none) := hs.chain.walkLast_eq hlength
  rw [ok_bind, hwalk]
  exact ⟨_, rfl⟩

theorem Shape.grow_one (hs : Shape h bs) (hframe : h.mapped < physRegionFrames) (hone : growPages nbytes = 1)
    (hfuel : bs.length < fuel) : ∃ h', kmemHeapGrow fuel (fun _ => true) nbytes h = .ok h' := by
  apply hs.grow_frames _ hfuel
  rw [hone]
  exact hframe

/-- A block is smaller than the zone of the heap. -/
theorem Shape.size_le (hs : Shape h bs) (hb : b ∈ bs) : b.size < 2 ^ 28 := by
  obtain ⟨hlow, hstop⟩ := hs.tiles.mem_bounds hb
  have hbound := hs.bound
  simp only [Block.stop, headerSize, kheapVirtBase, kheapVirtMax] at hlow hstop hbound
  omega

/-- The block that an allocation hands out is as large as the rounded request. -/
theorem Allocated.kmemSize {p : ℕ} {bs' pre post : List Block} (ha : Allocated size bs p bs' b pre post)
    (hs : Shape h' bs') : size ≤ kmemSize h' p := by
  have hmem : b.taken size ∈ bs' := (ha.mem_used rfl).mpr (.inr rfl)
  have hsize := (hs.kmemSize_eq hmem).1
  have hp : p = (b.taken size).payload := ha.result
  have hfits := ha.fits
  rw [hp, hsize]
  unfold Block.taken
  dsimp only
  split
  · exact le_refl size
  · exact hfits

/-- The growth of a heap that is out of frames panics. -/
theorem Shape.grow_none (hs : Shape h bs) (hfull : physRegionFrames ≤ h.mapped) :
    kmemHeapGrow fuel ok nbytes h ≠ .ok h' := by
  intro hok
  obtain ⟨-, hmapped, hle⟩ := kmemHeapGrow_grown hs hok
  have hpos := growPages_pos nbytes
  omega

/-- What a grown heap has at its end is free. -/
theorem grown_free (h : Heap) (bs : List Block) (k : ℕ) : ∃ b ∈ grown h bs k, b.used = false := by
  rcases List.eq_nil_or_concat' bs with rfl | ⟨pre, l, rfl⟩
  · exact ⟨newBlock h k, List.mem_singleton_self _, rfl⟩
  · cases hu : l.used with
    | true =>
      refine ⟨newBlock h k, ?_, rfl⟩
      simp [grown, hu]
    | false =>
      refine ⟨{ l with size := l.size + pageSize * k }, ?_, hu⟩
      simp [grown, hu]

theorem grown_length (h : Heap) (bs : List Block) (k : ℕ) : (grown h bs k).length ≤ bs.length + 1 := by
  rcases List.eq_nil_or_concat' bs with rfl | ⟨pre, l, rfl⟩
  · exact le_refl 1
  · cases hu : l.used <;> simp [grown, hu]

/-- A search for no bytes at all takes any free block. -/
theorem Shape.firstFit_any (hs : Shape h bs) (hfree : ∃ b ∈ bs, b.used = false) (hfuel : bs.length < fuel) :
    ∃ blk, firstFit fuel h 0 = .ok (some blk) := by
  obtain ⟨b, hb, hu⟩ := hfree
  have hsome : (firstFree 0 bs).isSome := by
    rw [firstFree, List.find?_isSome]
    refine ⟨b, hb, ?_⟩
    simp [hu]
  obtain ⟨c, hc⟩ := Option.isSome_iff_exists.mp hsome
  refine ⟨c.addr, ?_⟩
  rw [hs.firstFit_eq hfuel, hc]
  rfl

/-- A request that wraps to zero is served as long as there is a free block or a frame. -/
theorem Shape.alloc_wrapped (hs : Shape h bs) (hsize : size ≠ 0) (hwrap : align8 size = 0)
    (hleft : (∃ b ∈ bs, b.used = false) ∨ h.mapped < physRegionFrames) :
    ∃ p h', kmemAlloc (bs.length + 2) (fun _ => true) size h = .ok (p, h') := by
  have hone : growPages 0 = 1 := by decide
  have hfuel : bs.length < bs.length + 2 := by omega
  unfold kmemAlloc
  rw [if_neg hsize, hwrap]
  by_cases hfree : ∃ b ∈ bs, b.used = false
  · obtain ⟨blk, hfit⟩ := hs.firstFit_any hfree hfuel
    dsimp only
    rw [hfit]
    exact ⟨_, _, rfl⟩
  · have hnone : firstFit (bs.length + 2) h 0 = .ok none := by
      rw [hs.firstFit_eq hfuel]
      have hfind : firstFree 0 bs = none := by
        rw [firstFree, List.find?_eq_none]
        intro b hb hc
        refine hfree ⟨b, hb, ?_⟩
        simpa using hc
      rw [hfind]
      rfl
    have hframe : h.mapped < physRegionFrames := hleft.resolve_left hfree
    obtain ⟨h₁, hgrow⟩ := hs.grow_one hframe hone hfuel
    have hs₁ := (kmemHeapGrow_grown hs hgrow).1
    have hlength : (grown h bs (growPages 0)).length < bs.length + 2 :=
      Nat.lt_succ_of_le (grown_length h bs _)
    obtain ⟨blk, hfit⟩ := hs₁.firstFit_any (grown_free h bs _) hlength
    dsimp only
    rw [hnone, ok_bind, hgrow, ok_bind, hfit]
    exact ⟨_, _, rfl⟩

/-- Requests are honoured in full: a pointer comes with the bytes asked for, and a heap that has grown has
grown by as many. -/
structure RequestsHonoured (h : Heap) (size nbytes : ℕ) : Prop where
  alloc : ∀ fuel ok p h', kmemAlloc fuel ok size h = .ok (p, h') → p ≠ 0 → size ≤ kmemSize h' p
  brk : ∀ fuel ok e h', kmemBrk fuel ok nbytes h = .ok (e, h') → h.heapEnd + nbytes ≤ h'.heapEnd

/-- Neither rounding wraps, or there is nothing left that a wrapped request could be served with. -/
structure RoundingFits (h : Heap) (bs : List Block) (size nbytes : ℕ) : Prop where
  align : size ≤ 2 ^ 32 - 8 ∨ (∀ b ∈ bs, b.used = true) ∧ physRegionFrames ≤ h.mapped
  pages : nbytes ≤ 2 ^ 32 - 4112 ∨ physRegionFrames ≤ h.mapped

/-- An allocation that returns has found a free block or has grown the heap. -/
theorem Shape.alloc_needs {p : ℕ} (hs : Shape h bs) (hsize : size ≠ 0) (hok : kmemAlloc fuel ok size h = .ok (p, h')) :
    (∃ b ∈ bs, b.used = false) ∨ h.mapped < physRegionFrames := by
  obtain ⟨h₁, bs₁, b, hsearched, hfind, -⟩ := kmemAlloc_takes hs hsize hok
  cases hsearched with
  | current =>
    obtain ⟨pre, post, rfl, hfree, -⟩ := firstFree_eq_some hfind
    exact .inl ⟨b, by simp, hfree⟩
  | grown hnone hgrow =>
    by_contra hno
    exact hs.grow_none (Nat.le_of_not_lt fun hlt => hno (.inr hlt)) hgrow

/-- The block behind the pointer of an allocation is smaller than the zone of the heap. -/
theorem Shape.alloc_small {p : ℕ} (hs : Shape h bs) (hsize : size ≠ 0) (hok : kmemAlloc fuel ok size h = .ok (p, h')) :
    p ≠ 0 ∧ KmemDynAlloc.kmemSize h' p < 2 ^ 28 := by
  obtain ⟨bs₁, bs', pre, b, post, -, ha, hs'⟩ := kmemAlloc_ok hs hsize hok
  have hmem : b.taken (align8 size) ∈ bs' := (ha.mem_used rfl).mpr (.inr rfl)
  have hp : p = (b.taken (align8 size)).payload := ha.result
  have hpos := hs'.addr_pos hmem
  rw [hp, (hs'.kmemSize_eq hmem).1]
  refine ⟨?_, hs'.size_le hmem⟩
  simp only [Block.payload]
  omega

theorem Shape.alloc_honoured {p : ℕ} (hs : Shape h bs) (hfits : size ≤ 2 ^ 32 - 8 ∨
    (∀ b ∈ bs, b.used = true) ∧ physRegionFrames ≤ h.mapped) (hok : kmemAlloc fuel ok size h = .ok (p, h')) :
    size ≤ KmemDynAlloc.kmemSize h' p := by
  by_cases hsize : size = 0
  · rw [hsize]
    exact Nat.zero_le _
  · rcases hfits with hsmall | ⟨hused, hfull⟩
    · obtain ⟨bs₁, bs', pre, b, post, -, ha, hs'⟩ := kmemAlloc_ok hs hsize hok
      have hle := ha.kmemSize hs'
      have hround := align8_eq hsmall
      omega
    · rcases hs.alloc_needs hsize hok with ⟨b, hb, hfree⟩ | hframe
      · rw [hused b hb] at hfree
        cases hfree
      · omega

theorem Shape.brk_honoured {e : ℕ} (hs : Shape h bs) (hfits : nbytes ≤ 2 ^ 32 - 4112 ∨ physRegionFrames ≤ h.mapped)
    (hok : kmemBrk fuel ok nbytes h = .ok (e, h')) : h.heapEnd + nbytes ≤ h'.heapEnd := by
  unfold kmemBrk at hok
  by_cases hn : nbytes = 0
  · rw [if_pos hn] at hok
    obtain ⟨-, rfl⟩ := Prod.mk.inj (Except.ok.inj hok)
    omega
  · rw [if_neg hn] at hok
    obtain ⟨h₁, hgrow, hok⟩ := bind_eq_ok.mp hok
    obtain ⟨-, rfl⟩ := Prod.mk.inj (Except.ok.inj hok)
    rcases hfits with hsmall | hfull
    · have henough := growPages_enough hsmall
      have hend := hs.grow_end hgrow
      omega
    · exact absurd hgrow (hs.grow_none hfull)

/-- In every reachable heap the requests are honoured exactly if their rounding does not wrap, or if
there is nothing left to serve them with. -/
theorem heap_requests_iff (s : HeapState) (hs : HeapReachable s) : ∃ bs, Represents s bs ∧
    ∀ size nbytes, size < 2 ^ 32 → nbytes < 2 ^ 32 →
      (RequestsHonoured s.heap size nbytes ↔ RoundingFits s.heap bs size nbytes) := by
  obtain ⟨bs, hi⟩ := HeapReachable.invariant hs
  have hshape := hi.shape
  refine ⟨bs, hi.represents, fun size nbytes hsize hnbytes => ⟨fun h => ⟨?_, ?_⟩, fun h => ⟨?_, ?_⟩⟩⟩
  · by_contra hno
    obtain ⟨hlarge, hleft⟩ := not_or.mp hno
    have hne : size ≠ 0 := by omega
    have hwrap := align8_wraps (Nat.lt_of_not_le hlarge) hsize
    have hserves : (∃ b ∈ bs, b.used = false) ∨ s.heap.mapped < physRegionFrames := by
      by_contra hnone
      obtain ⟨hused, hfull⟩ := not_or.mp hnone
      refine hleft ⟨fun b hb => ?_, Nat.le_of_not_lt hfull⟩
      exact (Bool.eq_false_or_eq_true b.used).resolve_right fun hfree => hused ⟨b, hb, hfree⟩
    obtain ⟨p, h', hok⟩ := hshape.alloc_wrapped hne hwrap hserves
    obtain ⟨hp, hsmall⟩ := hshape.alloc_small hne hok
    have hle := h.alloc _ _ p h' hok hp
    omega
  · by_contra hno
    obtain ⟨hlarge, hfull⟩ := not_or.mp hno
    have hone := growPages_wraps (Nat.lt_of_not_le hlarge) hnbytes
    obtain ⟨h', hgrow⟩ := hshape.grow_one (Nat.lt_of_not_le hfull) hone (Nat.lt_succ_self bs.length)
    have hbrk : kmemBrk (bs.length + 1) (fun _ => true) nbytes s.heap = .ok (h'.heapEnd, h') := by
      unfold kmemBrk
      rw [if_neg (by omega), hgrow]
      rfl
    have hend := hshape.grow_end hgrow
    have hle := h.brk _ _ _ _ hbrk
    rw [hone] at hend
    simp only [pageSize] at hend
    omega
  · intro fuel ok p h' hok _
    exact hshape.alloc_honoured h.align hok
  · intro fuel ok e h' hok
    exact hshape.brk_honoured h.pages hok

/-- The heap right after boot. -/
theorem heap_boot : ∃ h₀, kmemDynAllocInit 2 (fun _ => true) (fun _ => 0) = .ok h₀ ∧ HeapReachable ⟨h₀, ∅⟩ := by
  obtain ⟨h₀, hinit⟩ : ∃ h₀, kmemDynAllocInit 2 (fun _ => true) (fun _ => 0) = .ok h₀ := ⟨_, rfl⟩
  exact ⟨h₀, hinit, .start ⟨rfl, 2, fun _ => true, fun _ => 0, hinit⟩⟩

/-- The condition for the heap right after boot. -/
theorem heap_requests_boot : ∃ h₀ : Heap, HeapReachable ⟨h₀, ∅⟩ ∧ ∃ bs, Represents ⟨h₀, ∅⟩ bs ∧
    ∀ size nbytes, size < 2 ^ 32 → nbytes < 2 ^ 32 →
      (RequestsHonoured h₀ size nbytes ↔ RoundingFits h₀ bs size nbytes) := by
  obtain ⟨h₀, -, hreach⟩ := heap_boot
  exact ⟨h₀, hreach, heap_requests_iff ⟨h₀, ∅⟩ hreach⟩

/-- `kmem_alloc (0xFFFFFFFF)` right after boot returns a pointer to a block without payload, and
`kmem_brk (0xFFFFFFFF)` returns after one page. -/
theorem heap_requests_wrap : ∃ h₀ h₁ h₂ fuel, HeapReachable ⟨h₀, ∅⟩ ∧
    kmemAlloc 2 (fun _ => true) 0xFFFFFFFF h₀ = .ok (0xC0000010, h₁) ∧ kmemSize h₁ 0xC0000010 = 0 ∧
    kmemBrk fuel (fun _ => true) 0xFFFFFFFF h₀ = .ok (h₀.heapEnd + 4096, h₂) ∧
    h₂.heapEnd = h₀.heapEnd + 4096 ∧
    ¬RequestsHonoured h₀ 0xFFFFFFFF 0 ∧ ¬RequestsHonoured h₀ 8 0xFFFFFFFF := by
  obtain ⟨h₀, hinit, hreach⟩ := heap_boot
  obtain ⟨h₁, halloc, hsize, hmapped⟩ : ∃ h₁, kmemAlloc 2 (fun _ => true) 0xFFFFFFFF h₀ = .ok (0xC0000010, h₁) ∧
      kmemSize h₁ 0xC0000010 = 0 ∧ h₀.mapped = 1 := by
    obtain rfl := Except.ok.inj hinit
    exact ⟨_, rfl, rfl, rfl⟩
  obtain ⟨bs, hi⟩ := HeapReachable.invariant hreach
  have hframe : h₀.mapped < physRegionFrames := by
    rw [hmapped]
    decide
  have hone : growPages 0xFFFFFFFF = 1 := by decide
  obtain ⟨h₂, hgrow⟩ := hi.shape.grow_one hframe hone (Nat.lt_succ_self bs.length)
  have hend : h₂.heapEnd = h₀.heapEnd + 4096 := by
    rw [hi.shape.grow_end hgrow, hone]
    rfl
  have hbrk : kmemBrk (bs.length + 1) (fun _ => true) 0xFFFFFFFF h₀ = .ok (h₀.heapEnd + 4096, h₂) := by
    unfold kmemBrk
    rw [if_neg (by decide), hgrow, ok_bind, hend]
  refine ⟨h₀, h₁, h₂, _, hreach, halloc, hsize, hbrk, hend, fun h => ?_, fun h => ?_⟩
  · have hle := h.alloc _ _ _ h₁ halloc (by decide)
    rw [hsize] at hle
    exact absurd hle (by decide)
  · have hle := h.brk _ _ _ h₂ hbrk
    omega

end HekaOS.KmemDynAlloc
