import HekaOS.HeapRequests

/-!
# Allocation after growth

`kmem_heap_grow` rounds up to pages with room for one header, so that the search after it finds a block:
the last one that was enlarged, or the one that was appended.
-/

namespace HekaOS.KmemDynAlloc
open MachineWord KernelMemory KernelTriples PointerChain

variable {h h' : Heap} {b : Block} {bs : List Block} {fuel size nbytes k : ℕ} {ok : ℕ → Bool} {s : HeapState}

/-- The pages hold the bytes of the request and a header. -/
theorem growPages_room (h : nbytes + 16 + 4095 < 2 ^ 32) : nbytes + headerSize ≤ pageSize * growPages nbytes := by
  rw [growPages_eq]
  simp only [wordSize, pageSize, headerSize]
  omega

/-- What a grown heap has at its end is free and holds as much as the new pages do. -/
theorem grown_fits (h : Heap) (bs : List Block) (k : ℕ) :
    ∃ b ∈ grown h bs k, b.used = false ∧ pageSize * k ≤ b.size + headerSize := by
  rcases List.eq_nil_or_concat' bs with rfl | ⟨pre, l, rfl⟩
  · refine ⟨newBlock h k, List.mem_singleton_self _, rfl, ?_⟩
    simp only [newBlock]
    omega
  · cases hu : l.used with
    | true =>
      refine ⟨newBlock h k, ?_, rfl, ?_⟩
      · simp [grown, hu]
      · simp only [newBlock]
        omega
    | false =>
      refine ⟨{ l with size := l.size + pageSize * k }, ?_, hu, ?_⟩
      · simp [grown, hu]
      · dsimp only
        omega

/-- The block is free and large enough, and no such block has a lower address. -/
structure LowestFit (bs : List Block) (size : ℕ) (b : Block) : Prop where
  mem : b ∈ bs
  free : b.used = false
  fits : size ≤ b.size
  lowest : ∀ c ∈ bs, c.used = false → size ≤ c.size → b.addr ≤ c.addr

/-- The first block that fits is the lowest one. -/
theorem Shape.firstFree_lowest (hs : Shape h bs) (hfind : firstFree size bs = some b) : LowestFit bs size b := by
  obtain ⟨pre, post, rfl, hfree, hfits, hpre⟩ := firstFree_eq_some hfind
  obtain ⟨-, -, -, hpost⟩ := hs.tiles.around
  refine ⟨List.mem_append_right _ List.mem_cons_self, hfree, hfits, fun c hc hcfree hcfits => ?_⟩
  rcases List.mem_append.mp hc with hc | hc
  · rcases hpre c hc with hused | hsmall
    · rw [hused] at hcfree
      cases hcfree
    · omega
  · rcases List.mem_cons.mp hc with rfl | hc
    · exact le_refl _
    · have hstop := (hpost c hc).1
      simp only [Block.stop, headerSize] at hstop
      omega

theorem exists_firstFree (h : ∃ b ∈ bs, b.used = false ∧ size ≤ b.size) : ∃ b, firstFree size bs = some b := by
  obtain ⟨b, hb, hfree, hfits⟩ := h
  have hsome : (firstFree size bs).isSome := by
    rw [firstFree, List.find?_isSome]
    refine ⟨b, hb, ?_⟩
    simp [hfree, hfits]
  exact Option.isSome_iff_exists.mp hsome

/-- The search after growth finds a block. -/
theorem grown_firstFree (h : Heap) (bs : List Block) (hsize : nbytes + 16 + 4095 < 2 ^ 32) :
    ∃ b, firstFree nbytes (grown h bs (growPages nbytes)) = some b := by
  obtain ⟨b, hb, hfree, hpages⟩ := grown_fits h bs (growPages nbytes)
  have hroom := growPages_room hsize
  exact exists_firstFree ⟨b, hb, hfree, by omega⟩

/-- Where no block fits, an allocation grows the heap, and takes what the second search finds. -/
theorem Shape.kmemAlloc_grown (hs : Shape h bs) (hne : size ≠ 0) (hfuel : bs.length + 1 < fuel)
    (hnone : firstFree (align8 size) bs = none) (hgrow : kmemHeapGrow fuel ok (align8 size) h = .ok h')
    (hfind : firstFree (align8 size) (grown h bs (growPages (align8 size))) = some b) :
    firstFit fuel h' (align8 size) = .ok (some b.addr) ∧ ∃ h'', kmemAlloc fuel ok size h = .ok (b.payload, h'') := by
  have hs' := (kmemHeapGrow_grown hs hgrow).1
  have hlength := grown_length h bs (growPages (align8 size))
  have hfirst := hs.firstFit_eq (by omega : bs.length < fuel) (align8 size)
  have hsecond := hs'.firstFit_eq (by omega : (grown h bs (growPages (align8 size))).length < fuel) (align8 size)
  rw [hnone] at hfirst
  rw [hfind] at hsecond
  refine ⟨hsecond, (KmemDynAlloc.splitBlock h' b.addr (align8 size)).setUsed b.addr 1, ?_⟩
  unfold kmemAlloc
  rw [if_neg hne]
  dsimp only
  rw [hfirst]
  change (kmemHeapGrow fuel ok (align8 size) h >>= _) = _
  rw [hgrow]
  change (firstFit fuel h' (align8 size) >>= _) = _
  rw [hsecond]
  rfl

/-! ### The panic -/

/-- The panic at the end of `kmem_alloc`. -/
def outOfMemory : Stop := .kpanic "kmem_dyn_alloc: out of memory"

theorem bind_eq_error {α β : Type} {x : Kernel α} {f : α → Kernel β} {e : Stop} :
    (x >>= f) = .error e ↔ x = .error e ∨ ∃ a, x = .ok a ∧ f a = .error e := by
  cases x <;> simp [bind, Except.bind]

theorem kpanic_ne_outOfMemory {α : Type} {m : String} (hm : m ≠ "kmem_dyn_alloc: out of memory") :
    (kpanic m : Kernel α) ≠ .error outOfMemory := by
  intro heq
  exact hm (Stop.kpanic.inj (Except.error.inj heq))

theorem ended_ne_outOfMemory {α : Type} (o : Option α) : ended o ≠ .error outOfMemory := by
  cases o with
  | none => intro heq; cases heq
  | some a => intro heq; cases heq

theorem allocPages_ne_outOfMemory (k vaddr : ℕ) (h : Heap) : allocPages ok k vaddr h ≠ .error outOfMemory := by
  induction k generalizing vaddr h with
  | zero => intro heq; cases heq
  | succ k ih =>
    rw [allocPages]
    split
    · exact ih _ _
    · exact kpanic_ne_outOfMemory (by decide)

theorem kmemHeapGrow_ne_outOfMemory : kmemHeapGrow fuel ok nbytes h ≠ .error outOfMemory := by
  unfold kmemHeapGrow
  dsimp only
  split
  · exact kpanic_ne_outOfMemory (by decide)
  · intro heq
    rcases bind_eq_error.mp heq with heq | ⟨h₁, -, heq⟩
    · exact allocPages_ne_outOfMemory _ _ _ heq
    · rcases bind_eq_error.mp heq with heq | ⟨last, -, heq⟩
      · exact ended_ne_outOfMemory _ heq
      · cases heq

/-- The second search finds a block, so that the panic behind it is never reached. -/
theorem Shape.kmemAlloc_ne_outOfMemory (hs : Shape h bs) (hsize : align8 size + 16 + 4095 < 2 ^ 32) :
    kmemAlloc fuel ok size h ≠ .error outOfMemory := by
  unfold kmemAlloc
  by_cases hne : size = 0
  · rw [if_pos hne]
    intro heq; cases heq
  · rw [if_neg hne]
    intro heq
    rcases bind_eq_error.mp heq with heq | ⟨r, -, heq⟩
    · exact ended_ne_outOfMemory _ heq
    · cases r with
      | some blk => cases heq
      | none =>
        rcases bind_eq_error.mp heq with heq | ⟨h₁, hgrow, heq⟩
        · exact kmemHeapGrow_ne_outOfMemory heq
        · rcases bind_eq_error.mp heq with heq | ⟨r, hfit, heq⟩
          · exact ended_ne_outOfMemory _ heq
          · cases r with
            | some blk => cases heq
            | none =>
              obtain ⟨b, hfind⟩ := grown_firstFree h bs hsize
              have hnone := (kmemHeapGrow_grown hs hgrow).1.firstFit_ok hfit
              rw [hfind] at hnone
              cases hnone

/-- No free block holds the rounded request. -/
def NoneFits (bs : List Block) (size : ℕ) : Prop := ∀ b ∈ bs, b.used = false → b.size < align8 size

theorem firstFree_eq_none (h : NoneFits bs size) : firstFree (align8 size) bs = none := by
  rw [firstFree, List.find?_eq_none]
  intro b hb hfits
  have hfits' : b.used = false ∧ align8 size ≤ b.size := by simpa using hfits
  have hsmall := h b hb hfits'.1
  omega

/-- Where no block fits and the growth returns, the search after it finds the lowest block that fits, and
the allocation returns that block. -/
theorem kmem_alloc_after_growth (s : HeapState) (hs : HeapReachable s) (size : ℕ)
    (hsize : align8 size + 16 + 4095 < 2 ^ 32) : ∃ bs, Represents s bs ∧
      (NoneFits bs size → size ≠ 0 → ∀ fuel ok h₁, bs.length + 1 < fuel →
        kmemHeapGrow fuel ok (align8 size) s.heap = .ok h₁ →
          ∃ bs₁ b, Represents ⟨h₁, s.live⟩ bs₁ ∧ LowestFit bs₁ (align8 size) b ∧
            firstFit fuel h₁ (align8 size) = .ok (some b.addr) ∧
            ∃ h₂, kmemAlloc fuel ok size s.heap = .ok (b.payload, h₂)) ∧
      ∀ fuel ok, kmemAlloc fuel ok size s.heap ≠ .error (.kpanic "kmem_dyn_alloc: out of memory") := by
  obtain ⟨bs, hi⟩ := HeapReachable.invariant hs
  refine ⟨bs, hi.represents, fun hnone hne fuel ok h₁ hfuel hgrow => ?_, fun fuel ok => ?_⟩
  · obtain ⟨b, hfind⟩ := grown_firstFree s.heap bs hsize
    have hi₁ := hi.grown_blocks hgrow
    obtain ⟨hfit, halloc⟩ := hi.shape.kmemAlloc_grown hne hfuel (firstFree_eq_none hnone) hgrow hfind
    exact ⟨_, b, hi₁.represents, hi₁.shape.firstFree_lowest hfind, hfit, halloc⟩
  · exact hi.shape.kmemAlloc_ne_outOfMemory hsize

/-- The first allocation of 5000 bytes finds one block of 4080 bytes, and is served from the block
of three pages after the growth. -/
theorem kmem_alloc_after_growth_boot : ∃ h₀ h₁ h₂ bs₁ b, HeapReachable ⟨h₀, ∅⟩ ∧
    kmemHeapGrow 3 (fun _ => true) 5000 h₀ = .ok h₁ ∧ Represents ⟨h₁, ∅⟩ bs₁ ∧ LowestFit bs₁ 5000 b ∧
    kmemAlloc 3 (fun _ => true) 5000 h₀ = .ok (b.payload, h₂) := by
  obtain ⟨h₀, hinit, hreach⟩ := heap_boot
  obtain ⟨bs, hr, hafter, -⟩ := kmem_alloc_after_growth ⟨h₀, ∅⟩ hreach 5000 (by decide)
  have haddrs : bs.map Block.addr = [0xC0000000] := by
    obtain rfl := Except.ok.inj hinit
    exact hr.chain.unique ⟨rfl, rfl⟩
  have hlength : bs.length = 1 := by simpa using congrArg List.length haddrs
  have hmapped : h₀.mapped = 1 := by
    obtain rfl := Except.ok.inj hinit
    rfl
  have hnone : NoneFits bs 5000 := by
    intro b hb _
    have haddr : b.addr = 0xC0000000 := by
      have hmem : b.addr ∈ bs.map Block.addr := List.mem_map_of_mem hb
      rw [haddrs] at hmem
      exact List.mem_singleton.mp hmem
    have hsize : b.size = 4080 := by
      rw [← (hr.fields b hb).1, haddr]
      obtain rfl := Except.ok.inj hinit
      rfl
    rw [hsize]
    decide
  have htwo : growPages 5000 = 2 := by decide
  have hframes : h₀.mapped + growPages 5000 ≤ physRegionFrames := by
    rw [hmapped, htwo]
    decide
  obtain ⟨bs', hi⟩ := HeapReachable.invariant hreach
  have haddrs' : bs'.map Block.addr = bs.map Block.addr := hi.represents.chain.unique hr.chain
  have hlength' : bs'.length = 1 := by
    rw [← hlength]
    simpa using congrArg List.length haddrs'
  obtain ⟨h₁, hgrow⟩ := hi.shape.grow_frames hframes (by omega : bs'.length < 3)
  obtain ⟨bs₁, b, hr₁, hlowest, -, h₂, halloc⟩ := hafter hnone (by decide) 3 _ h₁ (by omega) hgrow
  exact ⟨h₀, h₁, h₂, bs₁, b, hreach, hgrow, hr₁, hlowest, halloc⟩

end HekaOS.KmemDynAlloc
