import HekaOS.HeapRequests

/-!
# Frees in any order

Since a free marks its block and coalesces, the frees of two pointers commute, a free undoes the
allocation before it, and the heap is one free block when all pointers are freed.
-/

namespace HekaOS.KmemDynAlloc
open MachineWord KernelMemory KernelTriples PointerChain TransitionSystem

variable {h h' : Heap} {b c x : Block} {pre post bs xs : List Block} {p q fuel size : ℕ} {ok : ℕ → Bool}
  {s t : HeapState} {l : List ℕ}

/-- Mark a block free if the pointer is its own. -/
def Block.release (p : ℕ) (b : Block) : Block := if b.payload = p then { b with used := false } else b

def release (p : ℕ) (bs : List Block) : List Block := bs.map (Block.release p)

/-- The pointer is that of no free block. -/
def Releasable (q : ℕ) (bs : List Block) : Prop := ∀ b ∈ bs, b.payload = q → b.used = true

theorem Block.release_self (b : Block) : b.release b.payload = { b with used := false } := if_pos rfl

theorem Block.release_of_ne (h : b.payload ≠ p) : b.release p = b := if_neg h

theorem Block.release_payload (p : ℕ) (b : Block) : (b.release p).payload = b.payload := by
  unfold Block.release
  split
  · rfl
  · rfl

theorem Block.release_comm (p q : ℕ) (b : Block) : (b.release p).release q = (b.release q).release p := by
  by_cases hp : b.payload = p
  · by_cases hq : b.payload = q
    · rw [← hp, ← hq]
    · have hq' : (b.release p).payload ≠ q := by rwa [b.release_payload]
      rw [b.release_of_ne hq, (b.release p).release_of_ne hq']
  · have hp' : (b.release q).payload ≠ p := by rwa [b.release_payload]
    rw [b.release_of_ne hp, (b.release q).release_of_ne hp']

theorem release_comm (p q : ℕ) (bs : List Block) : release q (release p bs) = release p (release q bs) := by
  unfold release
  rw [List.map_map, List.map_map]
  exact List.map_congr_left fun b _ => b.release_comm p q

theorem release_of_ne (hne : ∀ b ∈ bs, b.payload ≠ p) : release p bs = bs := by
  unfold release
  conv_rhs => rw [← List.map_id bs]
  exact List.map_congr_left fun b hb => b.release_of_ne (hne b hb)

/-- Releasing the one block of a pointer. -/
theorem release_middle (hne : ∀ x ∈ pre ++ post, x.payload ≠ b.payload) :
    release b.payload (pre ++ b :: post) = pre ++ { b with used := false } :: post := by
  have hpre := release_of_ne fun x hx => hne x (List.mem_append_left _ hx)
  have hpost := release_of_ne fun x hx => hne x (List.mem_append_right _ hx)
  unfold release at hpre hpost ⊢
  rw [List.map_append, List.map_cons, hpre, hpost, b.release_self]

/-- Releasing another pointer leaves a pointer releasable. -/
theorem Releasable.release (hq : Releasable q bs) (hne : p ≠ q) : Releasable q (release p bs) := by
  intro x hx hxq
  obtain ⟨b, hb, rfl⟩ := List.mem_map.mp hx
  rw [b.release_payload] at hxq
  have hbp : b.payload ≠ p := fun hp => hne (hp.symm.trans hxq)
  rw [b.release_of_ne hbp]
  exact hq b hb hxq

theorem releasable_glue (hb : b.payload = q → b.used = true) (hbs : Releasable q bs) : Releasable q (glue b bs) := by
  cases bs with
  | nil =>
    intro x hx hxq
    obtain rfl := List.mem_singleton.mp hx
    exact hb hxq
  | cons c cs =>
    rw [glue]
    split
    · rename_i hfree
      intro x hx hxq
      rcases List.mem_cons.mp hx with rfl | hx
      · exact hb hxq
      · exact hbs x (List.mem_cons_of_mem _ hx) hxq
    · intro x hx hxq
      rcases List.mem_cons.mp hx with rfl | hx
      · exact hb hxq
      · exact hbs x hx hxq

theorem releasable_coalesce (h : Releasable q bs) : Releasable q (coalesce bs) := by
  induction bs with
  | nil => exact h
  | cons b bs ih =>
    exact releasable_glue (h b List.mem_cons_self) (ih fun x hx => h x (List.mem_cons_of_mem _ hx))

/-- Gluing before a release is undone by coalescing after it. -/
theorem coalesce_release_glue (hb : b.payload = q → b.used = true) (hbs : Releasable q bs) :
    coalesce (release q (glue b bs)) = coalesce (release q (b :: bs)) := by
  cases bs with
  | nil => rfl
  | cons c cs =>
    rw [glue]
    split
    · rename_i hfree
      have hbq : b.payload ≠ q := by
        intro hc
        rw [hb hc] at hfree
        exact Bool.noConfusion hfree.1
      have hcq : c.payload ≠ q := by
        intro hc
        rw [hbs c List.mem_cons_self hc] at hfree
        exact Bool.noConfusion hfree.2
      have hjoin : (b.join c).payload ≠ q := hbq
      simp only [release, List.map_cons, Block.release_of_ne hbq, Block.release_of_ne hcq,
        Block.release_of_ne hjoin, coalesce]
      exact glue_join hfree.1 hfree.2
    · rfl

/-- A release may be coalesced before or only after. -/
theorem coalesce_release_coalesce (h : Releasable q bs) :
    coalesce (release q (coalesce bs)) = coalesce (release q bs) := by
  induction bs with
  | nil => rfl
  | cons b bs ih =>
    have hbs : Releasable q bs := fun x hx => h x (List.mem_cons_of_mem _ hx)
    rw [coalesce, coalesce_release_glue (h b List.mem_cons_self) (releasable_coalesce hbs)]
    exact congrArg (glue _) (ih hbs)

/-- Blocks that are all free coalesce to one. -/
theorem coalesce_free {a e : ℕ} (hfree : ∀ b ∈ bs, b.used = false) (htiles : Tiles a bs e) (hne : bs ≠ []) :
    coalesce bs = [⟨a, e - a - headerSize, false⟩] := by
  induction bs generalizing a with
  | nil => exact absurd rfl hne
  | cons b bs ih =>
    obtain ⟨haddr, htiles⟩ := htiles
    have hb := hfree b List.mem_cons_self
    obtain ⟨addr, sz, used⟩ := b
    dsimp only at haddr hb
    subst haddr hb
    rw [coalesce]
    cases bs with
    | nil =>
      have hend : Block.stop ⟨addr, sz, false⟩ = e := htiles
      simp only [Block.stop] at hend
      simp only [coalesce, glue, List.cons.injEq, Block.mk.injEq, true_and, and_true]
      omega
    | cons c cs =>
      have hcfree : ∀ b ∈ c :: cs, b.used = false := fun b hb => hfree b (List.mem_cons_of_mem _ hb)
      have hle := htiles.2.le
      have hc := htiles.1
      rw [ih hcfree htiles (List.cons_ne_nil c cs), glue_of_free rfl rfl]
      simp only [Block.join, Block.stop, headerSize, List.cons.injEq, Block.mk.injEq, true_and, and_true] at hle hc ⊢
      omega

/-- The blocks of a heap, read off memory: their addresses in list order, sizes and used flags. -/
structure BlockList (h : Heap) (bs : List Block) : Prop where
  chain : Chain h.next (ptr h.head) (bs.map Block.addr)
  fields : ∀ b ∈ bs, h.size b.addr = b.size ∧ h.used b.addr = b.used.toNat

theorem Shape.blockList (hs : Shape h bs) : BlockList h bs := by
  refine ⟨hs.chain, fun b hb => ?_⟩
  obtain ⟨pre, post, rfl⟩ := List.append_of_mem hb
  obtain ⟨hb', -⟩ := hs.at
  exact ⟨hb'.size, hb'.used⟩

theorem BlockList.unique (hb : BlockList h bs) (hb' : BlockList h xs) : bs = xs := by
  have hread : ∀ {ys}, BlockList h ys →
      (ys.map Block.addr).map (fun a => ⟨a, h.size a, decide (h.used a ≠ 0)⟩) = ys := by
    intro ys hy
    rw [List.map_map]
    conv_rhs => rw [← List.map_id ys]
    refine List.map_congr_left fun b hb => ?_
    obtain ⟨addr, sz, used⟩ := b
    obtain ⟨hsize, hused⟩ := hy.fields _ hb
    dsimp only at hsize hused
    cases used <;> simp [hsize, hused]
  rw [← hread hb, ← hread hb', hb.chain.unique hb'.chain]

def SameBlocks (h h' : Heap) : Prop := ∃ bs, BlockList h bs ∧ BlockList h' bs

/-- Coalescing what an allocation has cut, its block free again. -/
theorem coalesce_untake (hc : Coalesced (pre ++ b :: post)) (hfree : b.used = false) (size : ℕ) :
    ∃ rest, b.take size = b.taken size :: rest ∧
      coalesce (pre ++ { b.taken size with used := false } :: (rest ++ post)) = pre ++ b :: post := by
  by_cases hfit : size + blockMin ≤ b.size
  · refine ⟨[⟨b.addr + headerSize + size, b.size - size - headerSize, false⟩], ?_, ?_⟩
    · rw [Block.take, Block.taken, if_pos hfit, if_pos hfit]
    · have hjoin : Block.join { b.taken size with used := false }
          ⟨b.addr + headerSize + size, b.size - size - headerSize, false⟩ = b := by
        obtain ⟨addr, sz, used⟩ := b
        dsimp only at hfree hfit
        rw [Block.taken, if_pos hfit, hfree]
        simp only [Block.join, Block.mk.injEq, true_and, and_true]
        simp only [blockMin, headerSize] at hfit ⊢
        omega
      rw [← coalesce_append_coalesce, List.singleton_append, coalesce, coalesce, ← glue_join rfl rfl, hjoin,
        ← coalesce, coalesce_append_coalesce, coalesce_of_coalesced hc]
  · refine ⟨[], ?_, ?_⟩
    · rw [Block.take, Block.taken, if_neg hfit, if_neg hfit]
    · have hback : { b.taken size with used := false } = b := by
        obtain ⟨addr, sz, used⟩ := b
        dsimp only at hfree hfit
        rw [Block.taken, if_neg hfit, hfree]
      rw [hback, List.nil_append, coalesce_of_coalesced hc]

/-- A free right after an allocation that did not grow the heap restores the blocks. -/
theorem HeapInvariant.free_alloc (hi : HeapInvariant s bs) (hok : kmemAlloc fuel ok size s.heap = .ok (p, h))
    (hend : h.heapEnd = s.heap.heapEnd) : ∃ h', kmemFree p h = .ok h' ∧ SameBlocks s.heap h' := by
  by_cases hsize : size = 0
  · obtain ⟨rfl, rfl⟩ : 0 = p ∧ s.heap = h := by simpa [kmemAlloc, hsize] using hok
    exact ⟨s.heap, if_pos rfl, bs, hi.shape.blockList, hi.shape.blockList⟩
  · obtain ⟨bs₁, bs', pre, b, post, hbs₁, ha, hs'⟩ := kmemAlloc_ok hi.shape hsize hok
    obtain rfl : bs₁ = bs := by
      rcases hbs₁ with ⟨rfl, -⟩ | ⟨k, -, hgrown⟩
      · rfl
      · omega
    have hc' := ha.coalesced hi.coalesced
    obtain ⟨rfl, hfree, -, -, rfl, rfl⟩ := ha
    obtain ⟨rest, htake, hback⟩ := coalesce_untake hi.coalesced hfree (align8 size)
    have hlist : pre ++ b.take (align8 size) ++ post = pre ++ b.taken (align8 size) :: (rest ++ post) := by
      rw [htake, List.append_assoc, List.cons_append]
    rw [hlist] at hs' hc'
    obtain ⟨h', hok', -, hs''⟩ := hs'.kmemFree hc' rfl
    rw [hback] at hs''
    exact ⟨h', hok', _, hi.shape.blockList, hs''.blockList⟩

/-- The free of a live pointer releases its block and coalesces. -/
theorem HeapInvariant.kmemFree (hi : HeapInvariant s bs) (hp : p ∈ s.live) :
    ∃ h', KmemDynAlloc.kmemFree p s.heap = .ok h' ∧ h'.heapEnd = s.heap.heapEnd ∧
      HeapInvariant ⟨h', s.live.erase p⟩ (coalesce (release p bs)) := by
  obtain ⟨pre, b, post, rfl, hu, rfl⟩ := hi.find hp
  obtain ⟨h', hok, hend, hs'⟩ := hi.shape.kmemFree hi.coalesced hu
  rw [release_middle fun x hx => hi.payload_ne hx]
  obtain ⟨bs', hi', -⟩ := hi.free hp hok
  have hbs' : bs' = coalesce (pre ++ { b with used := false } :: post) := hi'.shape.blockList.unique hs'.blockList
  rw [← hbs']
  exact ⟨h', hok, hend, hi'⟩

/-- Two frees in either order leave the same blocks. -/
theorem HeapInvariant.free_comm (hi : HeapInvariant s bs) (hp : p ∈ s.live) (hq : q ∈ s.live) (hne : p ≠ q) :
    ∃ h₁, (KmemDynAlloc.kmemFree p s.heap >>= KmemDynAlloc.kmemFree q) = .ok h₁ ∧
      BlockList h₁ (coalesce (release q (release p bs))) := by
  have hreleasable : Releasable q bs := by
    intro x hx hxq
    obtain ⟨b, hb, hu, hbq⟩ := (hi.live q).mp hq
    have haddr : x.addr = b.addr := by
      have hpayload := hxq.trans hbq.symm
      simpa [Block.payload] using hpayload
    rwa [hi.shape.eq_of_addr hx hb haddr]
  obtain ⟨h, hok, -, hi'⟩ := hi.kmemFree hp
  have hq' : q ∈ s.live.erase p := Finset.mem_erase.mpr ⟨hne.symm, hq⟩
  obtain ⟨h₁, hok₁, -, hi₁⟩ := hi'.kmemFree hq'
  refine ⟨h₁, ?_, ?_⟩
  · rw [hok, ok_bind]
    exact hok₁
  · have hrel := coalesce_release_coalesce (hreleasable.release hne)
    rw [← hrel]
    exact hi₁.shape.blockList

/-- Freeing all live pointers, one after the other, leaves one block. -/
theorem HeapInvariant.free_all (hi : HeapInvariant s bs) (hpos : kheapVirtBase < s.heap.heapEnd) (hnodup : l.Nodup)
    (hl : ∀ p, p ∈ l ↔ p ∈ s.live) : ∃ h', l.foldlM (fun h p => KmemDynAlloc.kmemFree p h) s.heap = .ok h' ∧
      h'.heapEnd = s.heap.heapEnd ∧
      BlockList h' [⟨kheapVirtBase, s.heap.heapEnd - kheapVirtBase - headerSize, false⟩] := by
  induction l generalizing s bs with
  | nil =>
    refine ⟨s.heap, rfl, rfl, ?_⟩
    have hfree : ∀ b ∈ bs, b.used = false := by
      intro b hb
      refine (Bool.eq_false_or_eq_true b.used).resolve_left fun hu => ?_
      have hlive := (hi.live b.payload).mpr ⟨b, hb, hu, rfl⟩
      exact List.not_mem_nil ((hl _).mpr hlive)
    have hne : bs ≠ [] := by
      rintro rfl
      exact hpos.ne hi.shape.tiles
    rw [← coalesce_free hfree hi.shape.tiles hne, coalesce_of_coalesced hi.coalesced]
    exact hi.shape.blockList
  | cons p l ih =>
    obtain ⟨hpl, hnodup⟩ := List.nodup_cons.mp hnodup
    obtain ⟨h, hok, hend, hi'⟩ := hi.kmemFree ((hl p).mp List.mem_cons_self)
    have hl' : ∀ q, q ∈ l ↔ q ∈ s.live.erase p := by
      intro q
      rw [Finset.mem_erase, ← hl q, List.mem_cons]
      constructor
      · exact fun hq => ⟨fun he => hpl (he ▸ hq), .inr hq⟩
      · exact fun ⟨hne, hq⟩ => hq.resolve_left hne
    obtain ⟨h', hok', hend', hblocks⟩ := ih hi' (hend ▸ hpos) hnodup hl'
    dsimp only at hend' hblocks
    rw [hend] at hend' hblocks
    refine ⟨h', ?_, hend', hblocks⟩
    rw [List.foldlM_cons, hok]
    exact hok'

/-- No step lowers the end of the heap. -/
theorem HeapInvariant.heapEnd_le {op : HeapOp} (hi : HeapInvariant s bs) (hstep : HeapStep op s t) :
    s.heap.heapEnd ≤ t.heap.heapEnd := by
  cases hstep with
  | @alloc _ h fuel ok size p hok =>
    by_cases hsize : size = 0
    · obtain ⟨-, rfl⟩ : 0 = p ∧ s.heap = h := by simpa [kmemAlloc, hsize] using hok
      exact le_refl _
    · obtain ⟨bs₁, bs', pre, b, post, hbs₁, -⟩ := kmemAlloc_ok hi.shape hsize hok
      rcases hbs₁ with ⟨-, hend⟩ | ⟨-, -, hend⟩
      · exact hend.ge
      · exact hend.le
  | @brk _ h fuel ok nbytes e hok =>
    by_cases hn : nbytes = 0
    · obtain ⟨-, rfl⟩ : s.heap.heapEnd = e ∧ s.heap = h := by simpa [kmemBrk, hn] using hok
      exact le_refl _
    · rw [kmemBrk, if_neg hn] at hok
      obtain ⟨h₁, hgrow, hok⟩ := bind_eq_ok.mp hok
      obtain ⟨-, rfl⟩ := Prod.mk.inj (Except.ok.inj hok)
      exact (hi.shape.grow_end hgrow).ge.trans' (Nat.le_add_right _ _)
  | @free _ h p hp hok =>
    obtain ⟨h', hok', hend, -⟩ := hi.kmemFree hp
    obtain rfl := Except.ok.inj (hok'.symm.trans hok)
    exact hend.ge
  | write hp ha ha' hv => exact le_refl _

theorem HeapReachable.heapEnd_pos (hs : HeapReachable s) : kheapVirtBase < s.heap.heapEnd := by
  have hboth : (∃ bs, HeapInvariant s bs) ∧ kheapVirtBase < s.heap.heapEnd := by
    refine Reachable.invariant (I := fun s => (∃ bs, HeapInvariant s bs) ∧ kheapVirtBase < s.heap.heapEnd) ?_ ?_ hs
    · intro s hinit
      refine ⟨heapInvariant_init hinit, ?_⟩
      obtain ⟨-, fuel, ok, mem, hok⟩ := hinit
      have h₀ : Shape { mem, head := 0, heapEnd := kheapVirtBase, mapped := 0 } [] :=
        ⟨rfl, trivial, rfl, by simp, rfl, by dsimp only; decide⟩
      have hpos := growPages_pos 0
      rw [h₀.grow_end hok]
      simp only [pageSize]
      omega
    · rintro s t ⟨⟨bs, hi⟩, hpos⟩ ⟨op, hstep⟩
      obtain ⟨bs', hi', -⟩ := heapInvariant_step hi hstep
      exact ⟨⟨bs', hi'⟩, hpos.trans_le (hi.heapEnd_le hstep)⟩
  exact hboth.2

/-- The states after an allocation that returned a pointer. -/
theorem HeapReachable.alloc (hs : HeapReachable s) (hp : p ≠ 0) (hok : kmemAlloc fuel ok size s.heap = .ok (p, h)) :
    HeapReachable ⟨h, insert p s.live⟩ := by
  have hstep := HeapStep.alloc fuel ok hok
  rw [if_neg hp] at hstep
  exact .next hs ⟨_, hstep⟩

/-- Frees undo allocations, commute, and give the whole heap back. -/
structure FreeConfluent (s : HeapState) : Prop where
  undo : ∀ fuel ok size p h, kmemAlloc fuel ok size s.heap = .ok (p, h) → h.heapEnd = s.heap.heapEnd →
    ∃ h', kmemFree p h = .ok h' ∧ SameBlocks s.heap h'
  swap : ∀ p ∈ s.live, ∀ q ∈ s.live, p ≠ q → ∃ h₁ h₂,
    (kmemFree p s.heap >>= kmemFree q) = .ok h₁ ∧ (kmemFree q s.heap >>= kmemFree p) = .ok h₂ ∧ SameBlocks h₁ h₂
  all : ∀ order : List ℕ, order.Nodup → (∀ p, p ∈ order ↔ p ∈ s.live) →
    ∃ h', order.foldlM (fun h p => kmemFree p h) s.heap = .ok h' ∧
      BlockList h' [⟨kheapVirtBase, h'.heapEnd - kheapVirtBase - headerSize, false⟩]

theorem heap_free_confluent (s : HeapState) (hs : HeapReachable s) : FreeConfluent s := by
  obtain ⟨bs, hi⟩ := HeapReachable.invariant hs
  refine ⟨fun _ _ _ _ _ hok hend => hi.free_alloc hok hend, fun p hp q hq hne => ?_, fun order hnodup horder => ?_⟩
  · obtain ⟨h₁, hok₁, hblocks₁⟩ := hi.free_comm hp hq hne
    obtain ⟨h₂, hok₂, hblocks₂⟩ := hi.free_comm hq hp hne.symm
    rw [release_comm] at hblocks₂
    exact ⟨h₁, h₂, hok₁, hok₂, _, hblocks₁, hblocks₂⟩
  · obtain ⟨h', hok, hend, hblocks⟩ := hi.free_all hs.heapEnd_pos hnodup horder
    rw [← hend] at hblocks
    exact ⟨h', hok, hblocks⟩

/-- Two pointers of 16 bytes right after boot, freed in either order. -/
theorem heap_free_confluent_two : ∃ h₁ h₂, HeapReachable ⟨h₂, insert 0xC0000030 (insert 0xC0000010 ∅)⟩ ∧
    kmemAlloc 4 (fun _ => true) 16 h₁ = .ok (0xC0000030, h₂) ∧ FreeConfluent ⟨h₂, insert 0xC0000030 (insert 0xC0000010 ∅)⟩ := by
  obtain ⟨h₀, hinit, hreach⟩ := heap_boot
  obtain ⟨h₁, h₂, hok₁, hok₂⟩ : ∃ h₁ h₂, kmemAlloc 4 (fun _ => true) 16 h₀ = .ok (0xC0000010, h₁) ∧
      kmemAlloc 4 (fun _ => true) 16 h₁ = .ok (0xC0000030, h₂) := by
    obtain rfl := Except.ok.inj hinit
    exact ⟨_, _, rfl, rfl⟩
  have hreach₁ := hreach.alloc (by decide) hok₁
  have hreach₂ := hreach₁.alloc (by decide) hok₂
  exact ⟨h₁, h₂, hreach₂, hok₂, heap_free_confluent _ hreach₂⟩

end HekaOS.KmemDynAlloc
