import HekaOS.KmemHeapBlocks

/-!
# Edits of the kernel heap

The allocator changes the heap in four ways: it flips the used flag of a block, cuts a
block in two, joins two neighbours, and grows the heap by whole pages. Each is an edit of
the block list that `Shape` relates to memory.
-/

namespace HekaOS.KmemDynAlloc
open MachineWord KernelMemory PointerChain

/-- The heap in memory is the given block list. -/
structure Shape (h : Heap) (bs : List Block) : Prop where
  head : h.head = headOr 0 bs
  linked : Linked h.mem 0 bs 0
  tiles : Tiles kheapVirtBase bs h.heapEnd
  aligned : ∀ b ∈ bs, 8 ∣ b.size
  pages : h.heapEnd = kheapVirtBase + pageSize * h.mapped
  bound : h.heapEnd ≤ kheapVirtMax + 1

/-- No two neighbouring blocks are both free. -/
def Coalesced (bs : List Block) : Prop := bs.IsChain fun a b => a.used = true ∨ b.used = true

variable {h h' : Heap} {a b c : Block} {pre post bs : List Block}

theorem Shape.addr_pos (hs : Shape h bs) (hb : b ∈ bs) : 0 < b.addr := by
  have := (hs.tiles.mem_bounds hb).1
  unfold kheapVirtBase at this
  omega

/-- What a block of the list says about memory and about its neighbours. -/
theorem Shape.at (hs : Shape h (pre ++ b :: post)) :
    HeaderAt h.mem b (headOr 0 post) (lastOr 0 pre) ∧
    (∀ x ∈ pre, x.stop ≤ b.addr) ∧ kheapVirtBase ≤ b.addr ∧ b.stop ≤ kheapVirtMax + 1 ∧
      ∀ y ∈ post, b.stop ≤ y.addr := by
  obtain ⟨hpre, hlow, hstop, hpost⟩ := hs.tiles.around
  exact ⟨hs.linked.header, fun x hx => (hpre x hx).2, hlow, hstop.trans hs.bound,
    fun y hy => (hpost y hy).1⟩

theorem Shape.chain (hs : Shape h bs) : Chain h.next (ptr h.head) (bs.map Block.addr) := by
  rw [hs.head]
  exact hs.linked.chain fun b hb => hs.addr_pos hb

/-- Edit the blocks between `lo` and `hi`: outside that interval only the back link of the
block behind it may change. -/
theorem Shape.edit {mid mid' : List Block} {lo hi : ℕ} (hs : Shape h (pre ++ mid ++ post))
    (hmid : Tiles lo mid hi) (hmid' : Tiles lo mid' hi) (hne : mid ≠ []) (hne' : mid' ≠ [])
    (hlink : Linked h'.mem (lastOr 0 pre) mid' (headOr 0 post))
    (hback : ∀ y ∈ post.head?, h'.mem (y.addr + 12) = lastOr (lastOr 0 pre) mid')
    (hframe : ∀ w, w < lo ∨ hi ≤ w → (∀ y ∈ post.head?, w ≠ y.addr + 12) → h'.mem w = h.mem w)
    (haligned : ∀ b ∈ mid', 8 ∣ b.size)
    (hrest : h'.head = h.head ∧ h'.heapEnd = h.heapEnd ∧ h'.mapped = h.mapped) :
    Shape h' (pre ++ mid' ++ post) := by
  obtain ⟨hhead, hend, hmapped⟩ := hrest
  have hstart : ∀ n, headOr n mid' = headOr n mid := by
    intro n
    cases mid with
    | nil => exact absurd rfl hne
    | cons b mid =>
      cases mid' with
      | nil => exact absurd rfl hne'
      | cons b' mid' => exact hmid'.1.trans hmid.1.symm
  obtain ⟨d, hpm, hpost⟩ := tiles_append.mp hs.tiles
  obtain ⟨c, hpre, hcd⟩ := tiles_append.mp hpm
  obtain ⟨rfl, rfl⟩ := hcd.unique hmid hne
  -- headers in front of the edit end before `c`, headers behind it start at `d`
  have hbefore : ∀ x ∈ pre, SameHeader h.mem h'.mem x := by
    intro x hx k hk
    have hx' := (hpre.mem_bounds hx).2
    have hcd' := hcd.le
    apply hframe
    · simp only [Block.stop, headerSize] at hx' hk
      omega
    · intro y hy
      have hy' := (hpost.mem_bounds (List.mem_of_mem_head? hy)).1
      simp only [Block.stop, headerSize] at hx' hk
      omega
  have hbehind : ∀ y ∈ post, ∀ k < headerSize, (∀ z ∈ post.head?, y.addr + k ≠ z.addr + 12) →
      h'.mem (y.addr + k) = h.mem (y.addr + k) := by
    intro y hy k hk hz
    have hy' := (hpost.mem_bounds hy).1
    exact hframe _ (.inr (by omega)) hz
  refine ⟨?_, ?_, ?_, ?_, ?_, ?_⟩
  · rw [hhead, hs.head]
    simp only [headOr_append, hstart]
  · refine hs.linked.replace hlink (hstart _) hbefore ?_ ?_
    · intro y hy
      refine ⟨hback y hy, fun k hk => hbehind y (List.mem_of_mem_head? hy) k ?_ ?_⟩
      · unfold headerSize
        omega
      · intro z hz
        have hzy : z = y := Option.mem_unique hz hy
        rw [hzy]
        omega
    · intro y hy k hk
      refine hbehind y (List.mem_of_mem_tail hy) k hk fun z hz => ?_
      cases post with
      | nil => simp at hy
      | cons z' post =>
        obtain rfl : z' = z := by simpa using hz
        have hzy := (hpost.2.mem_bounds hy).1
        simp only [Block.stop, headerSize] at hzy hk
        omega
  · rw [hend]
    exact tiles_append.mpr ⟨d, tiles_append.mpr ⟨c, hpre, hmid'⟩, hpost⟩
  · intro x hx
    have hx' : x ∈ pre ∨ x ∈ mid' ∨ x ∈ post := by simpa using hx
    rcases hx' with hx | hx | hx
    · exact hs.aligned x (by simp [hx])
    · exact haligned x hx
    · exact hs.aligned x (by simp [hx])
  · rw [hend, hmapped, hs.pages]
  · rw [hend]
    exact hs.bound

/-- The back link of the block behind `b`. -/
theorem Shape.back (hs : Shape h (pre ++ b :: post)) :
    ∀ y ∈ post.head?, h.mem (y.addr + 12) = b.addr ∧ b.stop ≤ y.addr := by
  intro y hy
  obtain ⟨-, -, -, -, hpost⟩ := hs.at
  refine ⟨?_, hpost y (List.mem_of_mem_head? hy)⟩
  cases post with
  | nil => simp at hy
  | cons z post =>
    obtain rfl : z = y := by simpa using hy
    exact (linked_append.mp hs.linked).2.2.1.prev

/-- Setting the used flag of a block. -/
theorem Shape.setUsed (hs : Shape h (pre ++ b :: post)) (u : Bool) :
    Shape (h.setUsed b.addr u.toNat) (pre ++ { b with used := u } :: post) := by
  obtain ⟨hb, -⟩ := hs.at
  have h₁ : Shape h (pre ++ [b] ++ post) := by simpa using hs
  have hcover : Tiles b.addr [b] b.stop := ⟨rfl, rfl⟩
  suffices h₂ : Shape (h.setUsed b.addr u.toNat) (pre ++ [{ b with used := u }] ++ post) by
    simpa using h₂
  refine h₁.edit hcover ⟨rfl, rfl⟩ (by simp) (by simp) ⟨⟨?_, ?_, ?_, ?_⟩, trivial⟩ ?_ ?_ ?_
    ⟨rfl, rfl, rfl⟩
  · simp [Heap.setUsed, hb.size]
  · simp [Heap.setUsed]
  · simp [Heap.setUsed, hb.next, headOr]
  · simp [Heap.setUsed, hb.prev]
  · intro y hy
    obtain ⟨hy₁, hy₂⟩ := hs.back y hy
    simp only [Block.stop, headerSize] at hy₂
    simp (disch := omega) only [Heap.setUsed, Heap.store_mem, Function.update_of_ne, hy₁, lastOr]
  · intro w hw _
    simp only [Block.stop, headerSize] at hw
    simp (disch := omega) only [Heap.setUsed, Heap.store_mem, Function.update_of_ne]
  · intro x hx
    obtain rfl : x = { b with used := u } := by simpa using hx
    exact hs.aligned b (by simp)

/-- The block that results when `a` takes over `b`. -/
def Block.join (a b : Block) : Block := { a with size := a.size + headerSize + b.size }

/-- The link to the block behind, when that block lies behind `stop`. -/
private theorem headOr_cases {stop : ℕ} (hpost : ∀ y ∈ post, stop ≤ y.addr) (hpos : 0 < stop) :
    (headOr 0 post = 0 ∧ post = []) ∨
      ∃ y, post.head? = some y ∧ headOr 0 post = y.addr ∧ y.addr ≠ 0 ∧ stop ≤ y.addr := by
  cases post with
  | nil => exact .inl ⟨rfl, rfl⟩
  | cons y post =>
    have hy := hpost y List.mem_cons_self
    exact .inr ⟨y, rfl, rfl, by omega, hy⟩

theorem Shape.joinBlocks (hs : Shape h (pre ++ a :: b :: post)) :
    Shape (joinBlocks h a.addr b.addr) (pre ++ a.join b :: post) := by
  obtain ⟨ha, -, halow, -, -⟩ := hs.at
  have hs' : Shape h ((pre ++ [a]) ++ b :: post) := by simpa using hs
  obtain ⟨hb, -, -, hbhigh, hpost⟩ := hs'.at
  obtain ⟨-, -, -, hstop, -⟩ := tiles_append.mp hs.tiles
  have hsum : add32 (h.size a.addr) (headerSize + h.size b.addr) = a.size + headerSize + b.size := by
    have hsizes : h.size a.addr = a.size ∧ h.size b.addr = b.size := ⟨ha.size, hb.size⟩
    rw [hsizes.1, hsizes.2, add32_of_lt]
    · ring
    · simp only [Block.stop, headerSize, kheapVirtMax, kheapVirtBase, wordSize] at *
      omega
  have hcases := headOr_cases hpost (by simp only [Block.stop, headerSize]; omega)
  simp only [Block.stop, headerSize] at hstop hcases
  -- only the header of `a` and, if there is a block behind `b`, its back link are written
  have hword : ∀ w, (headOr 0 post ≠ 0 → w ≠ headOr 0 post + 12) →
      (KmemDynAlloc.joinBlocks h a.addr b.addr).mem w = Function.update (Function.update h.mem a.addr
        (a.size + headerSize + b.size)) (a.addr + 8) (headOr 0 post) w := by
    intro w hw
    simp only [KmemDynAlloc.joinBlocks, hb.next, hsum]
    exact Heap.linkBack_mem_of_ne _ _ hw
  have h₁ : Shape h (pre ++ [a, b] ++ post) := by simpa using hs
  have hcover : Tiles a.addr [a, b] b.stop := ⟨rfl, hstop, rfl⟩
  suffices h₂ : Shape (KmemDynAlloc.joinBlocks h a.addr b.addr) (pre ++ [a.join b] ++ post) by
    simpa using h₂
  refine h₁.edit hcover ⟨rfl, ?_⟩ (by simp) (by simp) ⟨⟨?_, ?_, ?_, ?_⟩, trivial⟩ ?_ ?_ ?_ ?_
  · simp only [Tiles, Block.join, Block.stop, headerSize]
    omega
  · rw [hword _ (by simp only [Block.join]; omega)]
    simp [Block.join]
  · rw [hword _ (by simp only [Block.join]; omega)]
    simp [Block.join, ha.used]
  · rw [hword _ (by simp only [Block.join]; omega)]
    simp [Block.join, headOr]
  · rw [hword _ (by simp only [Block.join]; omega)]
    simp [Block.join, ha.prev]
  · intro y hy
    rcases hcases with ⟨-, rfl⟩ | ⟨z, hz, hz', hz₀, -⟩
    · simp at hy
    · obtain rfl : z = y := Option.mem_unique hz hy
      simp only [KmemDynAlloc.joinBlocks, hb.next, hz', lastOr, Block.join]
      exact Heap.linkBack_mem_self _ _ hz₀
  · intro w hw hy
    simp only [Block.stop, headerSize] at hw
    rw [hword w]
    · simp (disch := omega) only [Function.update_of_ne]
    · intro hne
      rcases hcases with ⟨h0, -⟩ | ⟨z, hz, hz', -, -⟩
      · exact absurd h0 hne
      · rw [hz']
        exact hy z hz
  · intro x hx
    obtain rfl : x = a.join b := by simpa using hx
    have h8a := hs.aligned a (by simp)
    have h8b := hs.aligned b (by simp)
    simp only [Block.join, headerSize]
    omega
  · simp [KmemDynAlloc.joinBlocks, Heap.setNext, Heap.setSize]

/-- The blocks that result from cutting `b` behind `size` bytes of payload. -/
def Block.split (b : Block) (size : ℕ) : List Block :=
  [{ b with size }, ⟨b.addr + headerSize + size, b.size - size - headerSize, false⟩]

theorem Shape.splitBlock (hs : Shape h (pre ++ b :: post)) {size : ℕ} (h8 : 8 ∣ size)
    (hfit : size + blockMin ≤ b.size) :
    Shape (splitBlock h b.addr size) (pre ++ b.split size ++ post) := by
  obtain ⟨hb, -, hlow, -, hpost⟩ := hs.at
  have hcases := headOr_cases hpost (by simp only [Block.stop, headerSize]; omega)
  have hsplit : KmemDynAlloc.splitBlock h b.addr size = (((((((h.setSize (b.addr + 16 + size)
      (b.size - size - 16)).setUsed (b.addr + 16 + size) 0).setNext (b.addr + 16 + size)
      (headOr 0 post)).setPrev (b.addr + 16 + size) b.addr).linkBack (headOr 0 post)
      (b.addr + 16 + size)).setNext b.addr (b.addr + 16 + size)).setSize b.addr size) := by
    have hsize : h.size b.addr = b.size := hb.size
    simp only [KmemDynAlloc.splitBlock, hsize, hb.next, headerSize, if_pos hfit]
  simp only [Block.stop, blockMin, headerSize] at hcases hfit
  have hrest : (KmemDynAlloc.splitBlock h b.addr size).head = h.head ∧
      (KmemDynAlloc.splitBlock h b.addr size).heapEnd = h.heapEnd ∧
      (KmemDynAlloc.splitBlock h b.addr size).mapped = h.mapped := by
    simp [hsplit, Heap.setNext, Heap.setSize, Heap.setPrev, Heap.setUsed]
  -- two headers are written, and the back link of the block behind if there is one
  have hword : ∀ w, (headOr 0 post ≠ 0 → w ≠ headOr 0 post + 12) →
      (KmemDynAlloc.splitBlock h b.addr size).mem w = Function.update (Function.update
        (Function.update (Function.update (Function.update (Function.update h.mem
          (b.addr + 16 + size) (b.size - size - 16)) (b.addr + 16 + size + 4) 0)
          (b.addr + 16 + size + 8) (headOr 0 post)) (b.addr + 16 + size + 12) b.addr)
          (b.addr + 8) (b.addr + 16 + size)) b.addr size w := by
    intro w hw
    rw [hsplit, Heap.setSize, Heap.store_mem, Heap.setNext, Heap.store_mem]
    by_cases h₀ : w = b.addr
    · simp [h₀]
    by_cases h₈ : w = b.addr + 8
    · simp [h₈]
    simp only [Function.update_of_ne h₀, Function.update_of_ne h₈]
    exact Heap.linkBack_mem_of_ne _ _ hw
  have h₁ : Shape h (pre ++ [b] ++ post) := by simpa using hs
  have hcover : Tiles b.addr [b] b.stop := ⟨rfl, rfl⟩
  refine h₁.edit hcover ⟨rfl, rfl, ?_⟩ (by simp) (by simp [Block.split])
    ⟨⟨?_, ?_, ?_, ?_⟩, ⟨?_, ?_, ?_, ?_⟩, trivial⟩ ?_ ?_ ?_ hrest
  · simp only [Tiles, Block.stop, headerSize]
    omega
  · rw [hword _ (by dsimp only; omega)]
    simp
  · rw [hword _ (by dsimp only; omega)]
    simp (disch := omega) only [Function.update_of_ne, hb.used]
  · rw [hword _ (by dsimp only; omega)]
    simp [headOr, headerSize]
  · rw [hword _ (by dsimp only; omega)]
    simp (disch := omega) only [Function.update_of_ne, hb.prev]
  · rw [hword _ (by dsimp only [headerSize]; omega)]
    simp (disch := omega) only [headerSize, Function.update_of_ne, Function.update_self]
  · rw [hword _ (by dsimp only [headerSize]; omega)]
    simp (disch := omega) only [headerSize, Function.update_of_ne, Function.update_self,
      Bool.toNat_false]
  · rw [hword _ (by dsimp only [headerSize]; omega)]
    simp (disch := omega) only [headerSize, Function.update_of_ne, Function.update_self, headOr]
  · rw [hword _ (by dsimp only [headerSize]; omega)]
    simp (disch := omega) only [headerSize, Function.update_of_ne, Function.update_self]
  · intro y hy
    rcases hcases with ⟨-, rfl⟩ | ⟨z, hz, hz', hz₀, hz₁⟩
    · simp at hy
    · obtain rfl : z = y := Option.mem_unique hz hy
      rw [hsplit, hz', Heap.setSize, Heap.store_mem, Heap.setNext, Heap.store_mem,
        Function.update_of_ne (by omega), Function.update_of_ne (by omega)]
      exact Heap.linkBack_mem_self _ _ hz₀
  · intro w hw hy
    simp only [Block.stop, headerSize] at hw
    rw [hword w]
    · simp (disch := omega) only [Function.update_of_ne]
    · intro hne
      rcases hcases with ⟨h0, -⟩ | ⟨z, hz, hz', -, -⟩
      · exact absurd h0 hne
      · rw [hz']
        exact hy z hz
  · intro x hx
    have h8b := hs.aligned b (by simp)
    have hx' : x = { b with size } ∨
        x = ⟨b.addr + headerSize + size, b.size - size - headerSize, false⟩ := by
      simpa [Block.split] using hx
    rcases hx' with rfl | rfl
    · exact h8
    · simp only [headerSize]
      omega

theorem allocPages_ok {ok : ℕ → Bool} {k vaddr : ℕ} (hok : allocPages ok k vaddr h = .ok h') :
    h' = { h with mapped := h.mapped + k } ∧ (k = 0 ∨ h.mapped + k ≤ physRegionFrames) := by
  induction k generalizing vaddr h with
  | zero => simpa [allocPages] using hok.symm
  | succ k ih =>
    rw [allocPages] at hok
    split at hok
    · rename_i hc
      obtain ⟨rfl, hk⟩ := ih hok
      have hlt : h.mapped < physRegionFrames := by simpa using (Bool.and_eq_true_iff.mp hc).2
      refine ⟨?_, .inr ?_⟩
      · simp only [Heap.mk.injEq, true_and]
        omega
      · dsimp only at hk
        omega
    · simp [kpanic] at hok

section Growth

variable {l : Block} {k : ℕ}

/-- The page count follows the heap end. -/
private theorem Shape.grown_pages (hs : Shape h bs) (hend : h'.heapEnd = h.heapEnd + pageSize * k)
    (hmapped : h'.mapped = h.mapped + k) :
    h'.heapEnd = kheapVirtBase + pageSize * h'.mapped := by
  rw [hend, hmapped, hs.pages]
  ring

theorem Shape.extendLast (hs : Shape h (pre ++ [l]))
    (hmem : h'.mem = Function.update h.mem l.addr (l.size + pageSize * k))
    (hhead : h'.head = h.head) (hend : h'.heapEnd = h.heapEnd + pageSize * k)
    (hmapped : h'.mapped = h.mapped + k) (hbound : h'.heapEnd ≤ kheapVirtMax + 1) :
    Shape h' (pre ++ [{ l with size := l.size + pageSize * k }]) := by
  obtain ⟨hl, hpre, -, -, -⟩ := hs.at
  obtain ⟨c, htpre, hlc, hstop⟩ := tiles_append.mp hs.tiles
  have hstop' : l.stop = h.heapEnd := hstop
  simp only [Block.stop, headerSize] at hstop' hpre
  refine ⟨?_, ?_, ?_, ?_, hs.grown_pages hend hmapped, hbound⟩
  · rw [hhead, hs.head, headOr_append, headOr_append]
    rfl
  · have h₁ : Linked h.mem 0 (pre ++ [l] ++ []) 0 := by simpa using hs.linked
    suffices h₂ : Linked h'.mem 0 (pre ++ [{ l with size := l.size + pageSize * k }] ++ []) 0 by
      simpa using h₂
    refine h₁.replace ⟨⟨?_, ?_, ?_, ?_⟩, trivial⟩ rfl ?_ (by simp) (by simp)
    · simp [hmem]
    · simp [hmem, hl.used]
    · simp [hmem, hl.next, headOr]
    · simp [hmem, hl.prev]
    · intro x hx i hi
      have := hpre x hx
      unfold headerSize at hi
      rw [hmem]
      exact Function.update_of_ne (by omega) _ _
  · refine tiles_append.mpr ⟨c, htpre, hlc, ?_⟩
    rw [hend]
    simp only [Tiles, Block.stop, headerSize]
    omega
  · intro x hx
    have h8 := hs.aligned l (by simp)
    have hx' : x ∈ pre ∨ x = { l with size := l.size + pageSize * k } := by simpa using hx
    rcases hx' with hx | rfl
    · exact hs.aligned x (by simp [hx])
    · simp only [pageSize]
      omega

/-- The block `kmem_heap_grow` writes at the old heap end. -/
def newBlock (h : Heap) (k : ℕ) : Block := ⟨h.heapEnd, pageSize * k - headerSize, false⟩

/-- Append the new block behind the last one, whose forward link now points to it. -/
theorem Shape.appendBlock (hs : Shape h bs) (hk : 0 < k)
    (hnew : HeaderAt h'.mem (newBlock h k) 0 (lastOr 0 bs))
    (hlast : ∀ l ∈ bs.getLast?, h'.mem (l.addr + 8) = h.heapEnd)
    (hframe : ∀ w < h.heapEnd, (∀ l ∈ bs.getLast?, w ≠ l.addr + 8) → h'.mem w = h.mem w)
    (hhead : h'.head = headOr h.heapEnd bs) (hend : h'.heapEnd = h.heapEnd + pageSize * k)
    (hmapped : h'.mapped = h.mapped + k) (hbound : h'.heapEnd ≤ kheapVirtMax + 1) :
    Shape h' (bs ++ [newBlock h k]) := by
  have hstop : (newBlock h k).stop = h'.heapEnd := by
    rw [hend]
    simp only [newBlock, Block.stop, headerSize, pageSize]
    omega
  refine ⟨?_, ?_, ?_, ?_, hs.grown_pages hend hmapped, hbound⟩
  · rw [hhead, headOr_append]
    rfl
  · rcases List.eq_nil_or_concat' bs with rfl | ⟨pre, l, rfl⟩
    · exact ⟨hnew, trivial⟩
    · obtain ⟨hl, hpre, -, -, -⟩ := hs.at
      have hlend : l.stop ≤ h.heapEnd := (hs.tiles.mem_bounds (by simp)).2
      have hlast' : h'.mem (l.addr + 8) = h.heapEnd := hlast l (by simp)
      have hsame : ∀ w < h.heapEnd, w ≠ l.addr + 8 → h'.mem w = h.mem w := by
        intro w hw hne
        refine hframe w hw fun x hx => ?_
        obtain rfl : l = x := by simpa using hx
        exact hne
      simp only [Block.stop, headerSize] at hlend hpre
      have h₁ : Linked h.mem 0 (pre ++ [l] ++ []) 0 := by simpa using hs.linked
      suffices h₂ : Linked h'.mem 0 (pre ++ [l, newBlock h k] ++ []) 0 by simpa using h₂
      refine h₁.replace ⟨⟨?_, ?_, hlast', ?_⟩, by simpa [lastOr, headOr] using hnew, trivial⟩ rfl ?_
        (by simp) (by simp)
      · exact (hsame _ (by omega) (by omega)).trans hl.size
      · exact (hsame _ (by omega) (by omega)).trans hl.used
      · exact (hsame _ (by omega) (by omega)).trans hl.prev
      · intro x hx i hi
        have := hpre x hx
        unfold headerSize at hi
        exact hsame _ (by omega) (by omega)
  · exact tiles_append.mpr ⟨h.heapEnd, hs.tiles, rfl, hstop⟩
  · intro x hx
    have hx' : x ∈ bs ∨ x = newBlock h k := by simpa using hx
    rcases hx' with hx | rfl
    · exact hs.aligned x hx
    · simp only [newBlock, pageSize, headerSize]
      omega

/-- The block list after growth by `k` pages. -/
def grown (h : Heap) (bs : List Block) (k : ℕ) : List Block :=
  match bs.getLast? with
  | some l =>
    if l.used then bs ++ [newBlock h k]
    else bs.dropLast ++ [{ l with size := l.size + pageSize * k }]
  | none => [newBlock h k]

theorem Shape.appendPages (hs : Shape h bs) (hk : 0 < k)
    (hbound : h.heapEnd + pageSize * k ≤ kheapVirtMax + 1) :
    Shape { appendPages { h with mapped := h.mapped + k } (bs.map Block.addr).getLast?
        (pageSize * k) with heapEnd := h.heapEnd + pageSize * k } (grown h bs k) := by
  have hsmall : pageSize * k < wordSize := by
    unfold kheapVirtMax at hbound
    unfold wordSize
    omega
  have hsize : sub32 (pageSize * k) headerSize = pageSize * k - headerSize :=
    sub32_of_le (by unfold headerSize pageSize; omega) hsmall
  rcases List.eq_nil_or_concat' bs with rfl | ⟨pre, l, rfl⟩
  · refine hs.appendBlock hk ⟨?_, ?_, ?_, ?_⟩ (by simp) ?_ rfl rfl rfl hbound
    · simp [KmemDynAlloc.appendPages, writeBlock, Heap.setSize, Heap.setUsed, Heap.setNext,
        Heap.setPrev, hsize, newBlock]
    · simp [KmemDynAlloc.appendPages, writeBlock, Heap.setSize, Heap.setUsed, Heap.setNext,
        Heap.setPrev, newBlock]
    · simp [KmemDynAlloc.appendPages, writeBlock, Heap.setSize, Heap.setUsed, Heap.setNext,
        Heap.setPrev, newBlock]
    · simp [KmemDynAlloc.appendPages, writeBlock, Heap.setSize, Heap.setUsed, Heap.setNext,
        Heap.setPrev, newBlock, lastOr]
    · intro w hw _
      simp (disch := omega) only [KmemDynAlloc.appendPages, writeBlock, Heap.setSize, Heap.setUsed,
        Heap.setNext, Heap.setPrev, Heap.store_mem, List.map_nil, List.getLast?_nil,
        Function.update_of_ne, Heap.store_heapEnd]
  · obtain ⟨hl, -, -, -, -⟩ := hs.at
    have hstop : l.stop = h.heapEnd := by
      obtain ⟨c, -, -, ht⟩ := tiles_append.mp hs.tiles
      exact ht
    have hlast : ((pre ++ [l]).map Block.addr).getLast? = some l.addr := by simp
    rw [hlast]
    cases hu : l.used with
    | false =>
      have hgrown : grown h (pre ++ [l]) k = pre ++ [{ l with size := l.size + pageSize * k }] := by
        simp [grown, hu]
      have hcond : h.mem (l.addr + 4) = 0 ∧ l.addr + headerSize + h.mem l.addr = h.heapEnd := by
        rw [hl.used, hl.size, hu]
        exact ⟨rfl, hstop⟩
      have hsum : add32 (h.mem l.addr) (pageSize * k) = l.size + pageSize * k := by
        rw [hl.size, add32_of_lt]
        simp only [Block.stop, headerSize, kheapVirtMax, wordSize] at *
        omega
      have hstate : KmemDynAlloc.appendPages { h with mapped := h.mapped + k } (some l.addr)
          (pageSize * k) = Heap.setSize { h with mapped := h.mapped + k } l.addr
            (add32 (h.mem l.addr) (pageSize * k)) := if_pos hcond
      rw [hgrown, hstate, hsum]
      exact hs.extendLast rfl rfl rfl rfl hbound
    | true =>
      have hgrown : grown h (pre ++ [l]) k = (pre ++ [l]) ++ [newBlock h k] := by simp [grown, hu]
      have hcond : ¬(h.mem (l.addr + 4) = 0 ∧ l.addr + headerSize + h.mem l.addr = h.heapEnd) := by
        rw [hl.used, hu]
        simp
      have hstate : KmemDynAlloc.appendPages { h with mapped := h.mapped + k } (some l.addr)
          (pageSize * k) = (writeBlock { h with mapped := h.mapped + k } (some l.addr)
            (pageSize * k)).setNext l.addr h.heapEnd := if_neg hcond
      simp only [Block.stop, headerSize] at hstop
      rw [hgrown, hstate]
      refine hs.appendBlock hk ⟨?_, ?_, ?_, ?_⟩ ?_ ?_ ?_ rfl rfl hbound
      · simp (disch := omega) only [writeBlock, Heap.setSize, Heap.setUsed, Heap.setNext, Heap.setPrev,
          Heap.store_mem, newBlock, Function.update_of_ne, Function.update_self, hsize]
      · simp (disch := omega) only [writeBlock, Heap.setSize, Heap.setUsed, Heap.setNext, Heap.setPrev,
          Heap.store_mem, newBlock, Function.update_of_ne, Function.update_self, Bool.toNat_false]
      · simp (disch := omega) only [writeBlock, Heap.setSize, Heap.setUsed, Heap.setNext, Heap.setPrev,
          Heap.store_mem, newBlock, Function.update_of_ne, Function.update_self]
      · simp (disch := omega) only [writeBlock, Heap.setSize, Heap.setUsed, Heap.setNext, Heap.setPrev,
          Heap.store_mem, newBlock, Function.update_of_ne, Function.update_self, lastOr_append, lastOr,
          Option.getD_some]
      · intro x hx
        obtain rfl : l = x := by simpa using hx
        simp [Heap.setNext]
      · intro w hw hne
        have hne' : w ≠ l.addr + 8 := hne l (by simp)
        simp (disch := omega) only [writeBlock, Heap.setSize, Heap.setUsed, Heap.setNext, Heap.setPrev,
          Heap.store_mem, Function.update_of_ne]
      · change h.head = _
        rw [hs.head]
        cases pre <;> rfl

theorem growPages_pos (nbytes : ℕ) : 0 < growPages nbytes := by
  dsimp only [growPages]
  split
  · exact Nat.one_pos
  · exact Nat.pos_of_ne_zero ‹_›

/-- Growth that returns has added the pages it asked for. -/
theorem kmemHeapGrow_grown {fuel nbytes : ℕ} {ok : ℕ → Bool} (hs : Shape h bs)
    (hok : kmemHeapGrow fuel ok nbytes h = .ok h') :
    Shape h' (grown h bs (growPages nbytes)) ∧ h'.mapped = h.mapped + growPages nbytes ∧
      h'.mapped ≤ physRegionFrames := by
  have hpos := growPages_pos nbytes
  simp only [kmemHeapGrow, gt_iff_lt, ite_kpanic_eq_ok, bind_eq_ok, ended_eq_ok] at hok
  obtain ⟨hlimit, h₁, halloc, last, hwalk, hres⟩ := hok
  obtain ⟨rfl, hframes⟩ := allocPages_ok halloc
  -- the frames run out before a page count could wrap around
  have htotal : growPages nbytes * pageSize % wordSize = pageSize * growPages nbytes := by
    rw [mul_comm]
    apply Nat.mod_eq_of_lt
    unfold physRegionFrames at hframes
    unfold wordSize pageSize
    omega
  have hend : add32 h.heapEnd (pageSize * growPages nbytes) =
      h.heapEnd + pageSize * growPages nbytes := by
    apply add32_of_lt
    have := hs.bound
    unfold physRegionFrames at hframes
    unfold kheapVirtMax at this
    unfold wordSize pageSize
    omega
  rw [htotal, hend] at hlimit
  have hchain : Chain h.next (ptr h.head) (bs.map Block.addr) := hs.chain
  have hlast : last = (bs.map Block.addr).getLast? := by
    simpa using hchain.walkLast_of_some hwalk
  have hres' := Except.ok.inj hres
  rw [htotal, hlast, appendPages_heapEnd, hend] at hres'
  subst hres'
  refine ⟨hs.appendPages hpos (by omega), ?_, ?_⟩
  · exact appendPages_mapped _ _ _
  · change (KmemDynAlloc.appendPages _ _ _).mapped ≤ _
    rw [appendPages_mapped]
    dsimp only
    omega

/-- Growth that returns has moved the end of the heap by whole pages. -/
theorem Shape.grow_end {fuel nbytes : ℕ} {ok : ℕ → Bool} (hs : Shape h bs) (hok : kmemHeapGrow fuel ok nbytes h = .ok h') :
    h'.heapEnd = h.heapEnd + pageSize * growPages nbytes := by
  obtain ⟨hs', hmapped, -⟩ := kmemHeapGrow_grown hs hok
  rw [hs'.pages, hs.pages, hmapped, Nat.mul_add, Nat.add_assoc]

end Growth

end HekaOS.KmemDynAlloc
