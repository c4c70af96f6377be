import Mathlib.Data.Finset.Basic
import Mathlib.Data.List.Find
import HekaOS.KmemHeapCoalescing
import HekaOS.TransitionSystem

/-!
# The kernel heap keeps its representation

Every operation of the heap is a sequence of edits of the block list. `Shape` is kept by
each edit; coalescing is restored by each operation as a whole. Histories mix the calls of
the allocator with stores of its clients into their own payloads.
-/

namespace HekaOS.KmemDynAlloc
open MachineWord KernelMemory PointerChain TransitionSystem

variable {h h' : Heap} {a b c : Block} {pre post bs : List Block}

section Coalescing

theorem coalesced_grown (hc : Coalesced bs) (h : Heap) (k : ℕ) : Coalesced (grown h bs k) := by
  rcases List.eq_nil_or_concat' bs with rfl | ⟨pre, l, rfl⟩
  · exact List.isChain_singleton _
  · cases hu : l.used with
    | true =>
      have he : grown h (pre ++ [l]) k = (pre ++ [l]) ++ [newBlock h k] := by simp [grown, hu]
      rw [he]
      refine List.isChain_append.mpr ⟨hc, List.isChain_singleton _, fun x hx y _ => .inl ?_⟩
      obtain rfl : l = x := by simpa using hx
      exact hu
    | false =>
      have he : grown h (pre ++ [l]) k = pre ++ [{ l with size := l.size + pageSize * k }] := by
        simp [grown, hu]
      obtain ⟨h₁, -, h₃⟩ := List.isChain_append.mp hc
      rw [he]
      refine List.isChain_append.mpr ⟨h₁, List.isChain_singleton _, fun x hx y hy => ?_⟩
      obtain rfl : { l with size := l.size + pageSize * k } = y := by simpa using hy
      exact h₃ x hx l (by simp)

/-- Used blocks keep the seams of an edit coalesced. -/
theorem coalesced_replace {mid : List Block} (hpre : Coalesced pre) (hmid : Coalesced mid)
    (hpost : Coalesced post)
    (hl : ∀ x ∈ pre.getLast?, ∀ y ∈ (mid ++ post).head?, x.used = true ∨ y.used = true)
    (hr : ∀ x ∈ mid.getLast?, ∀ y ∈ post.head?, x.used = true ∨ y.used = true) :
    Coalesced (pre ++ mid ++ post) := by
  rw [List.append_assoc]
  exact List.isChain_append.mpr ⟨hpre, List.isChain_append.mpr ⟨hmid, hpost, hr⟩, hl⟩

end Coalescing

/-- What `kmem_alloc` leaves of a free block. -/
def Block.take (b : Block) (size : ℕ) : List Block :=
  if size + blockMin ≤ b.size then
    [{ b with size, used := true }, ⟨b.addr + headerSize + size, b.size - size - headerSize, false⟩]
  else [{ b with used := true }]

/-- What an allocation does to the list in which its first-fit search succeeded. -/
structure Allocated (size : ℕ) (bs : List Block) (p : ℕ) (bs' : List Block) (b : Block)
    (pre post : List Block) : Prop where
  found : bs = pre ++ b :: post
  free : b.used = false
  fits : size ≤ b.size
  first : ∀ x ∈ pre, x.used = true ∨ x.size < size
  result : p = b.payload
  after : bs' = pre ++ b.take size ++ post

theorem align8_dvd (size : ℕ) : 8 ∣ align8 size := by
  rw [align8, clearLow_eq (by decide) (add32_lt _ _)]
  exact ⟨_, Nat.mul_comm _ _⟩

/-- The block of the first-fit search. -/
def firstFree (size : ℕ) (bs : List Block) : Option Block := bs.find? fun b => !b.used && decide (size ≤ b.size)

theorem firstFree_eq_some {size : ℕ} (hfind : firstFree size bs = some b) :
    ∃ pre post, bs = pre ++ b :: post ∧ b.used = false ∧ size ≤ b.size ∧
      ∀ x ∈ pre, x.used = true ∨ x.size < size := by
  obtain ⟨hfits, pre, post, rfl, hpre⟩ := List.find?_eq_some_iff_append.mp hfind
  have hfits' : b.used = false ∧ size ≤ b.size := by simpa using hfits
  refine ⟨pre, post, rfl, hfits'.1, hfits'.2, fun x hx => ?_⟩
  have hno := hpre x hx
  cases hu : x.used with
  | true => exact .inl rfl
  | false =>
    right
    simpa [hu] using hno

/-- What the search finds in memory is what it finds in the list. -/
theorem Shape.find_fits (hs : Shape h bs) (size : ℕ) :
    (bs.map Block.addr).find? (h.fits size) = (firstFree size bs).map Block.addr := by
  have hfits : bs.find? (h.fits size ∘ Block.addr) = firstFree size bs := by
    refine List.find?_congr fun b hb => ?_
    obtain ⟨pre, post, rfl⟩ := List.append_of_mem hb
    obtain ⟨hb', -⟩ := hs.at
    have hb'' : h.used b.addr = b.used.toNat ∧ h.size b.addr = b.size := ⟨hb'.used, hb'.size⟩
    cases hu : b.used <;> simp [Heap.fits, hb''.1, hb''.2, hu]
  rw [List.find?_map, hfits]

theorem Shape.firstFit_ok {fuel size : ℕ} {r : Option ℕ} (hs : Shape h bs) (hok : firstFit fuel h size = .ok r) :
    r = (firstFree size bs).map Block.addr :=
  (hs.chain.find_of_some (ended_eq_ok.mp hok)).trans (hs.find_fits size)

/-- Taking a free block for a request that fits. -/
theorem Shape.take (hs : Shape h (pre ++ b :: post)) {size : ℕ} (h8 : 8 ∣ size) :
    Shape ((KmemDynAlloc.splitBlock h b.addr size).setUsed b.addr 1) (pre ++ b.take size ++ post) := by
  by_cases hfit : size + blockMin ≤ b.size
  · have h₁ := hs.splitBlock h8 hfit
    have h₂ : Shape (KmemDynAlloc.splitBlock h b.addr size) (pre ++ { b with size } ::
        ⟨b.addr + headerSize + size, b.size - size - headerSize, false⟩ :: post) := by
      simpa [Block.split] using h₁
    have h₃ := h₂.setUsed true
    simpa [Block.take, hfit] using h₃
  · obtain ⟨hb, -⟩ := hs.at
    have hsize : h.size b.addr = b.size := hb.size
    have hsplit : KmemDynAlloc.splitBlock h b.addr size = h := by
      simp only [KmemDynAlloc.splitBlock, hsize, if_neg hfit]
    have h₃ := hs.setUsed true
    rw [hsplit]
    simpa [Block.take, hfit] using h₃

theorem Allocated.coalesced {size p : ℕ} {bs' : List Block} (ha : Allocated size bs p bs' b pre post)
    (hc : Coalesced bs) : Coalesced bs' := by
  obtain ⟨rfl, hfree, -, -, -, rfl⟩ := ha
  obtain ⟨hpre, hbpost, -⟩ := List.isChain_append.mp hc
  have hpost : Coalesced post := hbpost.tail
  -- the block behind a free block is used
  have hnext : ∀ y ∈ post.head?, y.used = true := by
    intro y hy
    obtain ⟨rest, rfl⟩ := List.head?_eq_some_iff.mp hy
    simpa [hfree] using (List.isChain_cons_cons.mp hbpost).1
  unfold Block.take
  split
  · refine coalesced_replace hpre ?_ hpost ?_ ?_
    · exact List.isChain_pair.mpr (.inl rfl)
    · simp
    · intro x _ y hy
      exact .inr (hnext y hy)
  · refine coalesced_replace hpre (List.isChain_singleton _) hpost ?_ ?_ <;> simp

/-- The heaps an allocation may take its block from: the current one, or the one after growth. -/
inductive Searched (fuel size : ℕ) (ok : ℕ → Bool) (h : Heap) (bs : List Block) : Heap → List Block → Prop
  | current : Searched fuel size ok h bs h bs
  | grown {h₁ : Heap} (hnone : firstFree (align8 size) bs = none)
      (hgrow : kmemHeapGrow fuel ok (align8 size) h = .ok h₁) :
      Searched fuel size ok h bs h₁ (grown h bs (growPages (align8 size)))

theorem Searched.shape {fuel size : ℕ} {ok : ℕ → Bool} {h₁ : Heap} {bs₁ : List Block}
    (hsearched : Searched fuel size ok h bs h₁ bs₁) (hs : Shape h bs) : Shape h₁ bs₁ := by
  cases hsearched with
  | current => exact hs
  | grown hnone hgrow => exact (kmemHeapGrow_grown hs hgrow).1

/-- An allocation that returns has taken the first block that fits. -/
theorem kmemAlloc_takes {fuel size p : ℕ} {ok : ℕ → Bool} (hs : Shape h bs) (hsize : size ≠ 0)
    (hok : kmemAlloc fuel ok size h = .ok (p, h')) :
    ∃ h₁ bs₁ b, Searched fuel size ok h bs h₁ bs₁ ∧ firstFree (align8 size) bs₁ = some b ∧ p = b.payload ∧
      h' = (splitBlock h₁ b.addr (align8 size)).setUsed b.addr 1 := by
  have hdone : ∀ {h₁ : Heap} {bs₁ : List Block} {blk : ℕ}, Searched fuel size ok h bs h₁ bs₁ →
      firstFit fuel h₁ (align8 size) = .ok (some blk) →
      (blk + headerSize, (splitBlock h₁ blk (align8 size)).setUsed blk 1) = (p, h') →
      ∃ h₁ bs₁ b, Searched fuel size ok h bs h₁ bs₁ ∧ firstFree (align8 size) bs₁ = some b ∧ p = b.payload ∧
        h' = (splitBlock h₁ b.addr (align8 size)).setUsed b.addr 1 := by
    intro h₁ bs₁ blk hsearched hfit hres
    obtain ⟨b, hfind, rfl⟩ := Option.map_eq_some_iff.mp ((hsearched.shape hs).firstFit_ok hfit).symm
    obtain ⟨rfl, rfl⟩ := Prod.mk.inj hres
    exact ⟨h₁, bs₁, b, hsearched, hfind, rfl, rfl⟩
  simp only [kmemAlloc, hsize, ↓reduceIte, bind_eq_ok] at hok
  obtain ⟨r, hfit, hok⟩ := hok
  cases r with
  | some blk => exact hdone .current hfit (Except.ok.inj hok)
  | none =>
    obtain ⟨h₁, hgrow, hok⟩ := bind_eq_ok.mp hok
    obtain ⟨r, hfit', hok⟩ := bind_eq_ok.mp hok
    have hnone := Option.map_eq_none_iff.mp (hs.firstFit_ok hfit).symm
    cases r with
    | some blk => exact hdone (.grown hnone hgrow) hfit' (Except.ok.inj hok)
    | none => simp [kpanic] at hok

theorem kmemAlloc_ok {fuel size p : ℕ} {ok : ℕ → Bool} (hs : Shape h bs) (hsize : size ≠ 0)
    (hok : kmemAlloc fuel ok size h = .ok (p, h')) :
    ∃ bs₁ bs' pre b post, (bs₁ = bs ∧ h'.heapEnd = h.heapEnd ∨ ∃ k, bs₁ = grown h bs k ∧ h.heapEnd < h'.heapEnd) ∧
      Allocated (align8 size) bs₁ p bs' b pre post ∧ Shape h' bs' := by
  obtain ⟨h₁, bs₁, b, hsearched, hfind, rfl, rfl⟩ := kmemAlloc_takes hs hsize hok
  obtain ⟨pre, post, rfl, hfree, hle, hfirst⟩ := firstFree_eq_some hfind
  have hs₁ := hsearched.shape hs
  refine ⟨_, _, pre, b, post, ?_, ⟨rfl, hfree, hle, hfirst, rfl, rfl⟩, hs₁.take (align8_dvd size)⟩
  have hend : ((splitBlock h₁ b.addr (align8 size)).setUsed b.addr 1).heapEnd = h₁.heapEnd := splitBlock_heapEnd _ _ _
  rw [hend]
  generalize hlist : pre ++ b :: post = bs₁ at hsearched
  cases hsearched with
  | current => exact .inl ⟨rfl, rfl⟩
  | grown hnone hgrow =>
    refine .inr ⟨_, rfl, ?_⟩
    have hpos := growPages_pos (align8 size)
    rw [hs.grow_end hgrow]
    simp only [pageSize]
    omega

theorem kmemFree_ok (hs : Shape h (pre ++ b :: post)) (hc : Coalesced (pre ++ b :: post)) (hu : b.used = true)
    (hok : kmemFree b.payload h = .ok h') :
    ∃ bs', Shape h' bs' ∧ Coalesced bs' ∧
      ∀ x : Block, x.used = true → (x ∈ bs' ↔ x ∈ pre ∨ x ∈ post) := by
  obtain ⟨h₁, hok₁, -, hs₁⟩ := hs.kmemFree hc hu
  obtain rfl := Except.ok.inj (hok₁.symm.trans hok)
  refine ⟨_, hs₁, coalesced_coalesce _, fun x hx => ?_⟩
  have hne : x ≠ { b with used := false } := fun he => by simp [he] at hx
  rw [mem_coalesce_used hx, List.mem_append, List.mem_cons, or_iff_right hne]

section UsedBlocks

theorem mem_grown_used {x : Block} (hx : x.used = true) (h : Heap) (bs : List Block) (k : ℕ) :
    x ∈ grown h bs k ↔ x ∈ bs := by
  have hnew : x ≠ newBlock h k := fun he => by simp [he, newBlock] at hx
  rcases List.eq_nil_or_concat' bs with rfl | ⟨pre, l, rfl⟩
  · simp [grown, hnew]
  · cases hu : l.used with
    | true => simp [grown, hu, hnew]
    | false =>
      have hl : x ≠ l := fun he => by simp [he, hu] at hx
      have hl' : x ≠ { l with size := l.size + pageSize * k } := fun he => by simp [he, hu] at hx
      have hl'' : x ≠ ⟨l.addr, l.size + pageSize * k, false⟩ := hu ▸ hl'
      simp [grown, hu, hl, hl'']

/-- The block an allocation hands out. -/
def Block.taken (b : Block) (size : ℕ) : Block :=
  { b with size := if size + blockMin ≤ b.size then size else b.size, used := true }

theorem Allocated.mem_used {size p : ℕ} {bs' : List Block}
    (ha : Allocated size bs p bs' b pre post) {x : Block} (hx : x.used = true) :
    x ∈ bs' ↔ x ∈ bs ∨ x = b.taken size := by
  obtain ⟨rfl, hfree, -, -, -, rfl⟩ := ha
  have hb : x ≠ b := fun he => by simp [he, hfree] at hx
  have htake : x ∈ b.take size ↔ x = b.taken size := by
    unfold Block.take Block.taken
    split
    · have hrest : x ≠ ⟨b.addr + headerSize + size, b.size - size - headerSize, false⟩ :=
        fun he => by simp [he] at hx
      simp [hrest]
    · simp
  simp only [List.mem_append, List.mem_cons, htake, hb, false_or]
  tauto

end UsedBlocks

/-! Histories of the heap. -/

/-- The heap together with the pointers handed out and not freed yet. -/
structure HeapState where
  heap : Heap
  live : Finset ℕ

inductive HeapOp where
  | alloc (size : ℕ)
  | brk (nbytes : ℕ)
  | free (p : ℕ)
  | write (a v : ℕ)

/-- One call that returned, or one byte that a client stores into a live payload. Longer stores are several of these. -/
inductive HeapStep : HeapOp → HeapState → HeapState → Prop
  | alloc {s : HeapState} {h : Heap} (fuel : ℕ) (ok : ℕ → Bool) {size p : ℕ}
      (hok : kmemAlloc fuel ok size s.heap = .ok (p, h)) :
      HeapStep (.alloc size) s ⟨h, if p = 0 then s.live else insert p s.live⟩
  | brk {s : HeapState} {h : Heap} (fuel : ℕ) (ok : ℕ → Bool) {nbytes e : ℕ}
      (hok : kmemBrk fuel ok nbytes s.heap = .ok (e, h)) : HeapStep (.brk nbytes) s ⟨h, s.live⟩
  | free {s : HeapState} {h : Heap} {p : ℕ} (hp : p ∈ s.live) (hok : kmemFree p s.heap = .ok h) :
      HeapStep (.free p) s ⟨h, s.live.erase p⟩
  | write {s : HeapState} {p a v : ℕ} (hp : p ∈ s.live) (ha : p ≤ a)
      (ha' : a < p + kmemSize s.heap p) (hv : v < 256) : HeapStep (.write a v) s ⟨s.heap.storeByte a v, s.live⟩

def HeapInit (s : HeapState) : Prop :=
  s.live = ∅ ∧ ∃ fuel ok mem, kmemDynAllocInit fuel ok mem = .ok s.heap

/-- States of the heap after any history of calls that returned. -/
def HeapReachable : HeapState → Prop := Reachable HeapInit fun s t => ∃ op, HeapStep op s t

structure HeapInvariant (s : HeapState) (bs : List Block) : Prop where
  shape : Shape s.heap bs
  coalesced : Coalesced bs
  live : ∀ p, p ∈ s.live ↔ ∃ b ∈ bs, b.used = true ∧ b.payload = p

/-- The pointer an operation acts on, if it frees one. -/
def HeapOp.target : HeapOp → Option ℕ
  | .free p => some p
  | _ => none

variable {s t : HeapState}

/-- A live pointer is the payload of one used block. -/
theorem HeapInvariant.find (hi : HeapInvariant s bs) {p : ℕ} (hp : p ∈ s.live) :
    ∃ pre b post, bs = pre ++ b :: post ∧ b.used = true ∧ b.payload = p := by
  obtain ⟨b, hb, hu, rfl⟩ := (hi.live p).mp hp
  obtain ⟨pre, post, rfl⟩ := List.append_of_mem hb
  exact ⟨pre, b, post, rfl, hu, rfl⟩

/-- Every block starts at a multiple of eight. -/
theorem Tiles.aligned {e₀ e : ℕ} (ht : Tiles e₀ bs e) (h₀ : 8 ∣ e₀) (h8 : ∀ b ∈ bs, 8 ∣ b.size) :
    ∀ b ∈ bs, 8 ∣ b.addr := by
  induction bs generalizing e₀ with
  | nil => simp
  | cons b bs ih =>
    intro x hx
    rcases List.mem_cons.mp hx with rfl | hx
    · exact ht.1 ▸ h₀
    · refine ih ht.2 ?_ (fun c hc => h8 c (List.mem_cons_of_mem _ hc)) x hx
      have := h8 b List.mem_cons_self
      have := ht.1
      simp only [Block.stop, headerSize]
      omega

theorem Shape.addr_aligned (hs : Shape h bs) (hb : b ∈ bs) : 8 ∣ b.addr :=
  hs.tiles.aligned (by decide) hs.aligned b hb

/-- Blocks of a tiling are told apart by their addresses. -/
theorem Shape.eq_of_addr (hs : Shape h bs) (hb : b ∈ bs) (hc : c ∈ bs) (he : b.addr = c.addr) :
    b = c := by
  by_contra hne
  have hd := hs.tiles.disjoint hb hc hne
  simp only [Block.stop, headerSize] at hd
  omega

theorem Shape.kmemSize_eq (hs : Shape h bs) (hb : b ∈ bs) :
    kmemSize h b.payload = b.size ∧ h.used (b.payload - headerSize) = b.used.toNat := by
  obtain ⟨pre, post, rfl⟩ := List.append_of_mem hb
  obtain ⟨hb', -⟩ := hs.at
  have hblk : b.payload - headerSize = b.addr := by simp [Block.payload]
  have hne : b.payload ≠ 0 := by
    have := hs.addr_pos hb
    simp only [Block.payload]
    omega
  rw [kmemSize, if_neg hne, hblk]
  exact ⟨hb'.size, hb'.used⟩

theorem HeapInvariant.kmemSize_eq (hi : HeapInvariant s bs) (hb : b ∈ bs) :
    kmemSize s.heap b.payload = b.size ∧ s.heap.used (b.payload - headerSize) = b.used.toNat :=
  hi.shape.kmemSize_eq hb

/-- A store into a payload leaves every header alone. -/
theorem Shape.store_payload (hs : Shape h bs) (hb : b ∈ bs) {w : ℕ} (hw : b.payload ≤ w)
    (hw' : w < b.stop) (v : ℕ) : Shape (h.store w v) bs := by
  refine ⟨hs.head, hs.linked.congr fun x hx k hk => ?_, hs.tiles, hs.aligned, hs.pages, hs.bound⟩
  refine Function.update_of_ne ?_ _ _
  by_cases hxb : x = b
  · subst hxb
    simp only [Block.payload] at hw
    omega
  · have hd := hs.tiles.disjoint hx hb hxb
    simp only [Block.stop, Block.payload, headerSize] at hd hw hw' hk
    omega

theorem heapInvariant_init (hs : HeapInit s) : ∃ bs, HeapInvariant s bs := by
  obtain ⟨hlive, fuel, ok, mem, hok⟩ := hs
  have h₀ : Shape { mem, head := 0, heapEnd := kheapVirtBase, mapped := 0 } [] :=
    ⟨rfl, trivial, rfl, by simp, rfl, by dsimp only; decide⟩
  have hshape := (kmemHeapGrow_grown h₀ hok).1
  refine ⟨_, hshape, List.isChain_singleton _, fun p => ?_⟩
  simp [hlive, grown, newBlock]

namespace HeapInvariant

/-- The block that is handed out joins the used ones. -/
theorem alloc {fuel size p : ℕ} {ok : ℕ → Bool} (hi : HeapInvariant s bs) (hsize : size ≠ 0)
    (hok : kmemAlloc fuel ok size s.heap = .ok (p, h)) :
    p ≠ 0 ∧ ∃ bs', HeapInvariant ⟨h, insert p s.live⟩ bs' ∧ ∀ b ∈ bs, b.used = true → b ∈ bs' := by
  obtain ⟨bs₁, bs', pre, b, post, hbs₁, ha, hs'⟩ := kmemAlloc_ok hi.shape hsize hok
  have hc₁ : Coalesced bs₁ := by
    rcases hbs₁ with ⟨rfl, -⟩ | ⟨k, rfl, -⟩
    · exact hi.coalesced
    · exact coalesced_grown hi.coalesced _ k
  have hused : ∀ x : Block, x.used = true → (x ∈ bs' ↔ x ∈ bs ∨ x = b.taken (align8 size)) := by
    intro x hx
    rw [ha.mem_used hx]
    rcases hbs₁ with ⟨rfl, -⟩ | ⟨k, rfl, -⟩
    · exact Iff.rfl
    · rw [mem_grown_used hx]
  have hp : p ≠ 0 := by
    have hb : 0 < (b.taken (align8 size)).addr := hs'.addr_pos ((hused _ rfl).mpr (.inr rfl))
    rw [ha.result]
    simp only [Block.taken] at hb
    simp only [Block.payload]
    omega
  refine ⟨hp, bs', ⟨hs', ha.coalesced hc₁, fun q => ?_⟩, fun x hx hu => (hused x hu).mpr (.inl hx)⟩
  simp only [Finset.mem_insert, hi.live q]
  constructor
  · rintro (rfl | ⟨x, hx, hu, rfl⟩)
    · exact ⟨b.taken (align8 size), (hused _ rfl).mpr (.inr rfl), rfl, ha.result.symm⟩
    · exact ⟨x, (hused x hu).mpr (.inl hx), hu, rfl⟩
  · rintro ⟨x, hx, hu, rfl⟩
    rcases (hused x hu).mp hx with hx | rfl
    · exact .inr ⟨x, hx, hu, rfl⟩
    · exact .inl ha.result.symm

/-- Growing the heap adds no used block. -/
theorem grown_blocks {fuel nbytes : ℕ} {ok : ℕ → Bool} (hi : HeapInvariant s bs)
    (hok : kmemHeapGrow fuel ok nbytes s.heap = .ok h) :
    HeapInvariant ⟨h, s.live⟩ (grown s.heap bs (growPages nbytes)) := by
  have hs' := (kmemHeapGrow_grown hi.shape hok).1
  refine ⟨hs', coalesced_grown hi.coalesced _ _, fun q => ?_⟩
  rw [hi.live q]
  exact exists_congr fun x => and_congr_left fun ⟨hu, _⟩ => (mem_grown_used hu _ _ _).symm

theorem grow {fuel nbytes : ℕ} {ok : ℕ → Bool} (hi : HeapInvariant s bs)
    (hok : kmemHeapGrow fuel ok nbytes s.heap = .ok h) :
    ∃ bs', HeapInvariant ⟨h, s.live⟩ bs' ∧ ∀ b ∈ bs, b.used = true → b ∈ bs' :=
  ⟨_, hi.grown_blocks hok, fun _ hx hu => (mem_grown_used hu _ _ _).mpr hx⟩

/-- Blocks are told apart by their payload. -/
theorem payload_ne (hi : HeapInvariant s (pre ++ b :: post)) (ha : a ∈ pre ++ post) : a.payload ≠ b.payload := by
  intro he
  have hnodup := hi.shape.chain.nodup
  have haddr : a.addr = b.addr := by simpa [Block.payload] using he
  simp only [List.map_append, List.map_cons, List.nodup_append, List.nodup_cons, List.mem_cons] at hnodup
  rcases List.mem_append.mp ha with ha | ha
  · exact hnodup.2.2 _ (List.mem_map_of_mem ha) _ (.inl rfl) haddr
  · exact hnodup.2.1.1 (haddr ▸ List.mem_map_of_mem ha)

/-- The block that is freed leaves the used ones. -/
theorem free {p : ℕ} (hi : HeapInvariant s bs) (hp : p ∈ s.live) (hok : kmemFree p s.heap = .ok h) :
    ∃ bs', HeapInvariant ⟨h, s.live.erase p⟩ bs' ∧ ∀ b ∈ bs, b.used = true → b.payload ≠ p → b ∈ bs' := by
  obtain ⟨pre, b, post, rfl, hu, rfl⟩ := hi.find hp
  obtain ⟨bs', hs', hc', hmem⟩ := kmemFree_ok hi.shape hi.coalesced hu hok
  refine ⟨bs', ⟨hs', hc', fun q => ?_⟩, fun x hx hux hne => (hmem x hux).mpr ?_⟩
  · simp only [Finset.mem_erase, hi.live q]
    constructor
    · rintro ⟨hq, x, hx, hux, rfl⟩
      refine ⟨x, (hmem x hux).mpr ?_, hux, rfl⟩
      have hxb : x ≠ b := fun he => hq (he ▸ rfl)
      simpa [hxb] using hx
    · rintro ⟨x, hx, hux, rfl⟩
      have hx' := (hmem x hux).mp hx
      exact ⟨hi.payload_ne (List.mem_append.mpr hx'), x, by simp [hx'.imp id Or.inr], hux, rfl⟩
  · have hxb : x ≠ b := fun he => hne (he ▸ rfl)
    simpa [hxb] using hx

/-- A byte that is stored into a live payload touches no block. -/
theorem write {p a v : ℕ} (hi : HeapInvariant s bs) (hp : p ∈ s.live) (ha : p ≤ a)
    (ha' : a < p + kmemSize s.heap p) : HeapInvariant ⟨s.heap.storeByte a v, s.live⟩ bs := by
  obtain ⟨b, hb, hu, rfl⟩ := (hi.live p).mp hp
  rw [(hi.kmemSize_eq hb).1] at ha'
  have haligned := hi.shape.addr_aligned hb
  simp only [Block.payload, headerSize] at ha ha'
  have hlow : b.payload ≤ a / 4 * 4 := by
    simp only [Block.payload, headerSize]
    omega
  have hstop : a / 4 * 4 < b.stop := by
    simp only [Block.stop, headerSize]
    omega
  exact ⟨hi.shape.store_payload hb hlow hstop _, hi.coalesced, hi.live⟩

end HeapInvariant

/-- One step keeps the invariant and every used block the step does not free. -/
theorem heapInvariant_step {op : HeapOp} (hi : HeapInvariant s bs) (hstep : HeapStep op s t) :
    ∃ bs', HeapInvariant t bs' ∧
      ∀ b ∈ bs, b.used = true → op.target ≠ some b.payload → b ∈ bs' := by
  cases hstep with
  | @alloc _ h fuel ok size p hok =>
    by_cases hsize : size = 0
    · obtain ⟨rfl, rfl⟩ : 0 = p ∧ s.heap = h := by simpa [kmemAlloc, hsize] using hok
      exact ⟨bs, ⟨hi.shape, hi.coalesced, by simpa using hi.live⟩, fun b hb _ _ => hb⟩
    · obtain ⟨hp, bs', hi', hkept⟩ := hi.alloc hsize hok
      rw [if_neg hp]
      exact ⟨bs', hi', fun b hb hu _ => hkept b hb hu⟩
  | @brk _ h fuel ok nbytes e hok =>
    by_cases hn : nbytes = 0
    · obtain ⟨-, rfl⟩ : s.heap.heapEnd = e ∧ s.heap = h := by simpa [kmemBrk, hn] using hok
      exact ⟨bs, hi, fun b hb _ _ => hb⟩
    · rw [kmemBrk, if_neg hn] at hok
      obtain ⟨h₁, hgrow, hok⟩ := bind_eq_ok.mp hok
      obtain ⟨-, rfl⟩ := Prod.mk.inj (Except.ok.inj hok)
      obtain ⟨bs', hi', hkept⟩ := hi.grow hgrow
      exact ⟨bs', hi', fun b hb hu _ => hkept b hb hu⟩
  | @free _ h p hp hok =>
    obtain ⟨bs', hi', hkept⟩ := hi.free hp hok
    exact ⟨bs', hi', fun b hb hu hne => hkept b hb hu fun he => hne (congrArg some he.symm)⟩
  | write hp ha ha' hv => exact ⟨bs, hi.write hp ha ha', fun x hx _ _ => hx⟩

theorem HeapReachable.invariant (hs : HeapReachable s) : ∃ bs, HeapInvariant s bs := by
  refine Reachable.invariant (I := fun s => ∃ bs, HeapInvariant s bs)
    (fun _ h => heapInvariant_init h) ?_ hs
  rintro s t ⟨bs, hi⟩ ⟨op, hstep⟩
  obtain ⟨bs', hi', -⟩ := heapInvariant_step hi hstep
  exact ⟨bs', hi'⟩

/-- The representation of the heap, as read off memory: the chain of blocks from the head
tiles the heap, both link directions agree, and the used blocks are the live pointers. -/
structure Represents (s : HeapState) (bs : List Block) : Prop where
  chain : Chain s.heap.next (ptr s.heap.head) (bs.map Block.addr)
  fields : ∀ b ∈ bs, s.heap.size b.addr = b.size ∧ s.heap.used b.addr = b.used.toNat
  tiles : Tiles kheapVirtBase bs s.heap.heapEnd
  inverse : ∀ a ∈ bs, ∀ b ∈ bs, s.heap.next a.addr = some b.addr ↔ s.heap.prev b.addr = some a.addr
  front : ∀ b ∈ bs.head?, s.heap.prev b.addr = none
  aligned : ∀ b ∈ bs, 8 ∣ b.size ∧ 8 ∣ b.payload
  coalesced : Coalesced bs
  live : ∀ p, p ∈ s.live ↔ ∃ b ∈ bs, b.used = true ∧ b.payload = p
  disjoint : ∀ p ∈ s.live, ∀ q ∈ s.live, p ≠ q →
    p + kmemSize s.heap p ≤ q ∨ q + kmemSize s.heap q ≤ p

/-- Two blocks in a row are linked in both directions. -/
theorem Shape.neighbours (hs : Shape h (pre ++ a :: b :: post)) :
    h.next a.addr = some b.addr ∧ h.prev b.addr = some a.addr := by
  obtain ⟨ha, -⟩ := hs.at
  have hback := (hs.back b rfl).1
  have hapos := hs.addr_pos (b := a) (by simp)
  have hbpos := hs.addr_pos (b := b) (by simp)
  exact ⟨ptr_eq_some.mpr ⟨ha.next, hbpos⟩, ptr_eq_some.mpr ⟨hback, hapos⟩⟩

theorem Shape.of_next (hs : Shape h bs) (ha : a ∈ bs) (hb : b ∈ bs) (hnext : h.next a.addr = some b.addr) :
    ∃ pre post, bs = pre ++ a :: b :: post := by
  obtain ⟨pre, post, rfl⟩ := List.append_of_mem ha
  obtain ⟨ha', -⟩ := hs.at
  obtain ⟨hword, hpos⟩ := ptr_eq_some.mp hnext
  rw [ha'.next] at hword
  cases post with
  | nil =>
    simp only [headOr] at hword
    omega
  | cons c post =>
    obtain rfl : c = b := hs.eq_of_addr (by simp) hb hword
    exact ⟨pre, post, rfl⟩

theorem Shape.of_prev (hs : Shape h bs) (ha : a ∈ bs) (hb : b ∈ bs) (hprev : h.prev b.addr = some a.addr) :
    ∃ pre post, bs = pre ++ a :: b :: post := by
  obtain ⟨pre, post, rfl⟩ := List.append_of_mem hb
  obtain ⟨hb', -⟩ := hs.at
  obtain ⟨hword, hpos⟩ := ptr_eq_some.mp hprev
  rw [hb'.prev] at hword
  rcases List.eq_nil_or_concat' pre with rfl | ⟨pre, c, rfl⟩
  · simp only [lastOr] at hword
    omega
  · rw [lastOr_append] at hword
    obtain rfl : c = a := hs.eq_of_addr (by simp) ha hword
    exact ⟨pre, post, by simp⟩

/-- The two link directions of the heap are inverse to each other. -/
theorem Shape.next_iff_prev (hs : Shape h bs) (ha : a ∈ bs) (hb : b ∈ bs) :
    h.next a.addr = some b.addr ↔ h.prev b.addr = some a.addr := by
  constructor
  · intro hnext
    obtain ⟨pre, post, rfl⟩ := hs.of_next ha hb hnext
    exact hs.neighbours.2
  · intro hprev
    obtain ⟨pre, post, rfl⟩ := hs.of_prev ha hb hprev
    exact hs.neighbours.1

theorem HeapInvariant.represents (hi : HeapInvariant s bs) : Represents s bs := by
  refine ⟨hi.shape.chain, ?_, hi.shape.tiles, fun a ha b hb => hi.shape.next_iff_prev ha hb, ?_, ?_,
    hi.coalesced, hi.live, ?_⟩
  · intro b hb
    obtain ⟨pre, post, rfl⟩ := List.append_of_mem hb
    obtain ⟨hb', -⟩ := hi.shape.at
    exact ⟨hb'.size, hb'.used⟩
  · intro b hb
    obtain ⟨rest, rfl⟩ := List.head?_eq_some_iff.mp hb
    have hb' : HeaderAt s.heap.mem b (headOr 0 rest) 0 := hi.shape.linked.1
    simp [Heap.prev, hb'.prev]
  · intro b hb
    have h8 := hi.shape.aligned b hb
    have haddr := hi.shape.tiles.aligned (by decide) hi.shape.aligned b hb
    refine ⟨h8, ?_⟩
    simp only [Block.payload, headerSize]
    omega
  · intro p hp q hq hne
    obtain ⟨b, hb, -, rfl⟩ := (hi.live p).mp hp
    obtain ⟨c, hc, -, rfl⟩ := (hi.live q).mp hq
    have hbc : b ≠ c := fun he => hne (he ▸ rfl)
    have hd := hi.shape.tiles.disjoint hb hc hbc
    rw [(hi.kmemSize_eq hb).1, (hi.kmemSize_eq hc).1]
    simp only [Block.stop, Block.payload, headerSize] at hd ⊢
    omega

/-- After every history the blocks tile the heap, are linked both ways, are coalesced and
aligned, and the used ones are the live allocations; and whatever is done next, every live
allocation other than the one that is freed keeps its address, its size and its used flag. -/
theorem heap_representation (s : HeapState) (hs : HeapReachable s) :
    (∃ bs, Represents s bs) ∧
    ∀ op t, HeapStep op s t → ∀ p ∈ s.live, op.target ≠ some p →
      p ∈ t.live ∧ kmemSize t.heap p = kmemSize s.heap p ∧
        t.heap.used (p - headerSize) = s.heap.used (p - headerSize) := by
  obtain ⟨bs, hi⟩ := HeapReachable.invariant hs
  refine ⟨⟨bs, hi.represents⟩, fun op t hstep p hp htarget => ?_⟩
  obtain ⟨b, hb, hu, rfl⟩ := (hi.live p).mp hp
  obtain ⟨bs', hi', hkept⟩ := heapInvariant_step hi hstep
  have hb' := hkept b hb hu htarget
  obtain ⟨hsize, hused⟩ := hi.kmemSize_eq hb
  obtain ⟨hsize', hused'⟩ := hi'.kmemSize_eq hb'
  exact ⟨(hi'.live _).mpr ⟨b, hb', hu, rfl⟩, hsize'.trans hsize.symm, hused'.trans hused.symm⟩

/-- The heap right after boot and one allocation of 100 bytes. -/
theorem heap_representation_boot : ∃ h₀ p h, kmemDynAllocInit 2 (fun _ => true) (fun _ => 0) = .ok h₀ ∧
    kmemAlloc 2 (fun _ => true) 100 h₀ = .ok (p, h) ∧
      ∃ bs, Represents ⟨h, if p = 0 then ∅ else insert p ∅⟩ bs := by
  obtain ⟨h₀, p, h, hinit, halloc⟩ : ∃ h₀ p h,
      kmemDynAllocInit 2 (fun _ => true) (fun _ => 0) = .ok h₀ ∧
        kmemAlloc 2 (fun _ => true) 100 h₀ = .ok (p, h) := ⟨_, _, _, rfl, rfl⟩
  have hboot : HeapReachable ⟨h₀, ∅⟩ := .start ⟨rfl, 2, fun _ => true, fun _ => 0, hinit⟩
  exact ⟨h₀, p, h, hinit, halloc,
    (heap_representation _ (.next hboot ⟨.alloc 100, .alloc 2 (fun _ => true) halloc⟩)).1⟩

end HekaOS.KmemDynAlloc
