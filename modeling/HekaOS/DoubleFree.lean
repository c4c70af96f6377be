import HekaOS.HeapFreeOrder

/-!
# Frees of pointers that were freed before

`kmem_free` takes a pointer for freed if the used flag in front of it is zero. Merges swallow the
header of a freed pointer into the payload of a larger block, where the flag lives on as plain data:
a client that is handed that memory may overwrite it, and so may the header of a later split. All
other steps leave it at zero.
-/

namespace HekaOS.KmemDynAlloc
open MachineWord KernelMemory PointerChain TransitionSystem

variable {h h' : Heap} {a b c x : Block} {pre post bs bs' : List Block} {w p size fuel nbytes k : ℕ}
  {ok : ℕ → Bool}

section Flags

/-- No header lies across the start of another. -/
theorem Shape.addr_ne (hs : Shape h bs) (hb : b ∈ bs) (hx : x ∈ bs) : x.addr + 8 ≠ b.addr := by
  by_cases he : x = b
  · rw [he]
    omega
  · have hd := hs.tiles.disjoint hx hb he
    simp only [Block.stop, headerSize] at hd
    omega

/-- A merge leaves the flags alone, apart from the link back of the block behind. -/
theorem Shape.joinBlocks_word (hs : Shape h (pre ++ a :: b :: post)) (hw : w % 8 = 4)
    (hne : ∀ x ∈ post, x.addr + 12 ≠ w) : (KmemDynAlloc.joinBlocks h a.addr b.addr).mem w = h.mem w := by
  have hs' : Shape h ((pre ++ [a]) ++ b :: post) := by simpa using hs
  obtain ⟨hb, -⟩ := hs'.at
  have ha : 8 ∣ a.addr := hs.addr_aligned (by simp)
  have hback : headOr 0 post ≠ 0 → w ≠ headOr 0 post + 12 := by
    intro hpos
    cases post with
    | nil => exact absurd rfl hpos
    | cons x post => exact (hne x List.mem_cons_self).symm
  simp only [KmemDynAlloc.joinBlocks, hb.next]
  rw [Heap.linkBack_mem_of_ne _ _ hback]
  simp (disch := omega) only [Heap.setNext, Heap.setSize, Heap.store_mem, Function.update_of_ne]

theorem Shape.mergeNext_word (hs : Shape h (pre ++ b :: post)) (hw : w % 8 = 4)
    (hne : ∀ x ∈ post, x.addr + 12 ≠ w) : (KmemDynAlloc.mergeNext h b.addr).mem w = h.mem w := by
  rw [KmemDynAlloc.mergeNext, hs.next_eq]
  cases post with
  | nil => rfl
  | cons c post =>
    dsimp only [List.head?_cons, Option.map_some]
    split
    · exact hs.joinBlocks_word hw fun x hx => hne x (List.mem_cons_of_mem _ hx)
    · rfl

theorem Shape.mergePrev_word (hs : Shape h (pre ++ b :: post)) (hw : w % 8 = 4)
    (hne : ∀ x ∈ post, x.addr + 12 ≠ w) : (KmemDynAlloc.mergePrev h b.addr).mem w = h.mem w := by
  rw [KmemDynAlloc.mergePrev, hs.prev_eq]
  rcases List.eq_nil_or_concat' pre with rfl | ⟨pre, a, rfl⟩
  · rfl
  · rw [List.getLast?_concat]
    dsimp only [Option.map_some]
    have hs' : Shape h (pre ++ a :: b :: post) := by simpa using hs
    split
    · exact hs'.joinBlocks_word hw hne
    · rfl

/-- A free changes no flag but that of its block. -/
theorem Shape.kmemFree_word (hs : Shape h (pre ++ b :: post)) (hok : KmemDynAlloc.kmemFree b.payload h = .ok h')
    (hw : w % 8 = 4) (hne : ∀ x ∈ post, x.addr + 12 ≠ w) :
    h'.mem w = if w = b.addr + 4 then 0 else h.mem w := by
  have hblk : b.payload - headerSize = b.addr := by simp [Block.payload]
  have hpos : b.payload ≠ 0 := by
    have hb := hs.addr_pos (b := b) (by simp)
    simp only [Block.payload]
    omega
  rw [KmemDynAlloc.kmemFree, if_neg hpos, hblk] at hok
  dsimp only at hok
  rw [ite_kpanic_eq_ok] at hok
  obtain ⟨-, hok⟩ := hok
  obtain rfl := Except.ok.inj hok
  have hfreed : Shape (h.setUsed b.addr 0) (pre ++ { b with used := false } :: post) := hs.setUsed false
  have hnext := hfreed.mergeNext rfl
  obtain ⟨c, cs, hc, haddr, -, hsub⟩ := glue_head { b with used := false } post
  rw [hc] at hnext
  have hprev := hnext.mergePrev_word hw fun x hx => hne x (hsub hx)
  rw [haddr] at hprev
  rw [hprev, hfreed.mergeNext_word hw hne]
  exact Function.update_apply _ _ _ _

theorem appendPages_word {last : Option ℕ} {total : ℕ} (hlast : ∀ l ∈ last, 8 ∣ l) (hw : w % 8 = 4)
    (hend : w < h.heapEnd) : (appendPages h last total).mem w = h.mem w := by
  have hblock : (writeBlock h last total).mem w = h.mem w := by
    simp (disch := omega) only [writeBlock, Heap.setSize, Heap.setUsed, Heap.setNext, Heap.setPrev,
      Heap.store_mem, Function.update_of_ne]
  cases last with
  | none => exact hblock
  | some l =>
    have hl := hlast l rfl
    unfold appendPages
    dsimp only
    split
    · exact Function.update_of_ne (by omega) _ _
    · rw [← hblock]
      exact Function.update_of_ne (by omega) _ _

/-- Growth writes a header behind the old end, or sizes and links. -/
theorem Shape.grow_word (hs : Shape h bs) (hok : kmemHeapGrow fuel ok nbytes h = .ok h') (hw : w % 8 = 4)
    (hend : w < h.heapEnd) : h'.mem w = h.mem w := by
  simp only [kmemHeapGrow, gt_iff_lt, ite_kpanic_eq_ok, bind_eq_ok, ended_eq_ok] at hok
  obtain ⟨-, h₁, halloc, last, hwalk, hres⟩ := hok
  obtain ⟨rfl, -⟩ := allocPages_ok halloc
  obtain rfl := Except.ok.inj hres
  have hchain : Chain h.next (ptr h.head) (bs.map Block.addr) := hs.chain
  have hlast : ∀ l ∈ last, 8 ∣ l := by
    intro l hl
    have hlist := hchain.walkLast_of_some hwalk
    rw [hlist, Option.or_none] at hl
    obtain ⟨b, hb, rfl⟩ := List.mem_map.mp (List.mem_of_getLast? hl)
    exact hs.addr_aligned hb
  exact appendPages_word hlast hw hend

theorem Shape.take_word (hs : Shape h (pre ++ b :: post)) (h8 : 8 ∣ size) (hw : w % 8 = 4)
    (hne : ∀ x ∈ pre ++ b :: post, x.addr + 12 ≠ w) (hflag : w ≠ b.addr + 4)
    (hcut : size + blockMin ≤ b.size → b.payload + size + 12 ≠ w) (hzero : h.mem w = 0) :
    ((KmemDynAlloc.splitBlock h b.addr size).setUsed b.addr 1).mem w = 0 := by
  obtain ⟨hb, -⟩ := hs.at
  have hba : 8 ∣ b.addr := hs.addr_aligned (by simp)
  have hsize : h.size b.addr = b.size := hb.size
  rw [Heap.setUsed, Heap.store_mem, Function.update_of_ne hflag]
  unfold KmemDynAlloc.splitBlock
  rw [hsize]
  split
  · rename_i hfit
    have hcut' := hcut hfit
    simp only [Block.payload, headerSize] at hcut'
    have hback : headOr 0 post ≠ 0 → w ≠ headOr 0 post + 12 := by
      intro hpos
      cases post with
      | nil => exact absurd rfl hpos
      | cons x post => exact (hne x (by simp)).symm
    dsimp only
    rw [hb.next, Heap.setSize, Heap.store_mem, Function.update_of_ne (by omega), Heap.setNext, Heap.store_mem,
      Function.update_of_ne (by omega), Heap.linkBack_mem_of_ne _ _ hback]
    by_cases hnew : w = b.addr + headerSize + size + 4
    · simp [hnew, Heap.setUsed, Heap.setNext, Heap.setPrev]
    · simp only [headerSize] at hnew ⊢
      simp (disch := omega) only [Heap.setSize, Heap.setUsed, Heap.setNext, Heap.setPrev, Heap.store_mem,
        Function.update_of_ne, hzero]
  · exact hzero

end Flags

section Addresses

/-- The headers of an edited list are old ones, or the new one that is named. -/
theorem mem_coalesce_addr (hx : x ∈ coalesce bs) : ∃ y ∈ bs, y.addr = x.addr := by
  induction bs with
  | nil => exact absurd hx List.not_mem_nil
  | cons b bs ih =>
    obtain ⟨c, cs, hc, haddr, -, hsub⟩ := glue_head b (coalesce bs)
    rw [coalesce, hc] at hx
    rcases List.mem_cons.mp hx with rfl | hx
    · exact ⟨b, List.mem_cons_self, haddr.symm⟩
    · obtain ⟨y, hy, hyx⟩ := ih (hsub hx)
      exact ⟨y, List.mem_cons_of_mem _ hy, hyx⟩

theorem mem_freed_addr (hx : x ∈ coalesce (pre ++ { b with used := false } :: post)) :
    ∃ y ∈ pre ++ b :: post, y.addr = x.addr := by
  obtain ⟨y, hy, haddr⟩ := mem_coalesce_addr hx
  simp only [List.mem_append, List.mem_cons] at hy ⊢
  rcases hy with hy | rfl | hy
  · exact ⟨y, .inl hy, haddr⟩
  · exact ⟨b, .inr (.inl rfl), haddr⟩
  · exact ⟨y, .inr (.inr hy), haddr⟩

/-- Growth extends the last block, which is free and reaches the end, or adds a block there. -/
theorem Shape.mem_grown {n : ℕ} (hs : Shape h bs) (hx : x ∈ grown h bs n) :
    x ∈ bs ∨ (∃ l ∈ bs, l.used = false ∧ l.addr = x.addr ∧ l.stop = h.heapEnd) ∨ x.addr = h.heapEnd := by
  rcases List.eq_nil_or_concat' bs with rfl | ⟨pre, l, rfl⟩
  · obtain rfl := List.mem_singleton.mp hx
    exact .inr (.inr rfl)
  · cases hu : l.used with
    | true =>
      have hgrown : grown h (pre ++ [l]) n = (pre ++ [l]) ++ [newBlock h n] := by simp [grown, hu]
      rw [hgrown] at hx
      rcases List.mem_append.mp hx with hx | hx
      · exact .inl hx
      · obtain rfl := List.mem_singleton.mp hx
        exact .inr (.inr rfl)
    | false =>
      have hgrown : grown h (pre ++ [l]) n = pre ++ [{ l with size := l.size + pageSize * n }] := by
        simp [grown, hu]
      rw [hgrown] at hx
      rcases List.mem_append.mp hx with hx | hx
      · exact .inl (List.mem_append_left _ hx)
      · obtain rfl := List.mem_singleton.mp hx
        obtain ⟨e, -, -, hstop⟩ := tiles_append.mp hs.tiles
        exact .inr (.inl ⟨l, by simp, hu, rfl, hstop⟩)

/-- A block that fits only after growth is cut behind the old end. -/
theorem Shape.firstFree_grown {n : ℕ} (hs : Shape h bs) (hnone : firstFree size bs = none)
    (hsome : firstFree size (grown h bs n) = some b) : h.heapEnd ≤ b.payload + size := by
  obtain ⟨pre, post, hgrown, hfree, hfits, -⟩ := firstFree_eq_some hsome
  have hno : ∀ x ∈ bs, x.used = false → x.size < size := by
    intro x hx hu
    have hfalse := List.find?_eq_none.mp hnone x hx
    simpa [hu] using hfalse
  have hb : b ∈ grown h bs n := by simp [hgrown]
  simp only [Block.payload]
  rcases hs.mem_grown hb with hb | ⟨l, hl, hlu, haddr, hstop⟩ | haddr
  · have hsmall := hno b hb hfree
    omega
  · have hsmall := hno l hl hlu
    simp only [Block.stop] at hstop
    omega
  · omega

theorem mem_take_addr (hx : x ∈ pre ++ b.take size ++ post) :
    (∃ y ∈ pre ++ b :: post, y.addr = x.addr) ∨ size + blockMin ≤ b.size ∧ x.addr = b.payload + size := by
  simp only [List.mem_append] at hx
  rcases hx with (hx | hx) | hx
  · exact .inl ⟨x, by simp [hx], rfl⟩
  · unfold Block.take at hx
    split at hx
    · rename_i hfit
      rcases List.mem_pair.mp hx with rfl | rfl
      · exact .inl ⟨b, by simp, rfl⟩
      · exact .inr ⟨hfit, rfl⟩
    · obtain rfl := List.mem_singleton.mp hx
      exact .inl ⟨b, by simp, rfl⟩
  · exact .inl ⟨x, by simp [hx], rfl⟩

end Addresses

/-- The header of a freed pointer, in the list or swallowed by a merge, still reads as free. -/
structure Retired (h : Heap) (bs : List Block) (a : ℕ) : Prop where
  aligned : 8 ∣ a
  inside : a + headerSize ≤ h.heapEnd
  apart : ∀ b ∈ bs, b.addr + 8 ≠ a
  flag : h.used a = 0

namespace Retired

theorem links (hr : Retired h bs k) : ∀ x ∈ bs, x.addr + 12 ≠ k + 4 := by
  intro x hx
  have hne := hr.apart x hx
  omega

theorem write (hr : Retired h bs k) {a v : ℕ} (hv : v ≠ 0 → a / 4 * 4 ≠ k + 4) : Retired (h.storeByte a v) bs k := by
  refine ⟨hr.aligned, hr.inside, hr.apart, ?_⟩
  have hflag : h.mem (k + 4) = 0 := hr.flag
  rw [Heap.used, Heap.storeByte, Heap.store_mem]
  by_cases ha : k + 4 = a / 4 * 4
  · have hzero : v = 0 := by
      by_contra hne
      exact hv hne ha.symm
    rw [← ha, Function.update_self, hzero, hflag]
    exact putByte_zero _
  · rw [Function.update_of_ne ha]
    exact hflag

theorem grow (hr : Retired h bs k) (hs : Shape h bs) (hok : kmemHeapGrow fuel ok nbytes h = .ok h') :
    Retired h' (grown h bs (growPages nbytes)) k := by
  have hin := hr.inside
  have hend := hs.grow_end hok
  have haligned := hr.aligned
  refine ⟨hr.aligned, by omega, fun x hx => ?_, ?_⟩
  · rcases hs.mem_grown hx with hx | ⟨l, hl, -, haddr, -⟩ | haddr
    · exact hr.apart x hx
    · rw [← haddr]
      exact hr.apart l hl
    · simp only [headerSize] at hin
      omega
  · have hword := hs.grow_word hok (w := k + 4) (by omega) (by simp only [headerSize] at hin; omega)
    exact hword.trans hr.flag

theorem take (hr : Retired h (pre ++ b :: post) k) (hs : Shape h (pre ++ b :: post)) (h8 : 8 ∣ size)
    (hne : k ≠ b.addr) (hcut : size + blockMin ≤ b.size → b.payload + size + 8 ≠ k) :
    Retired ((splitBlock h b.addr size).setUsed b.addr 1) (pre ++ b.take size ++ post) k := by
  have haligned := hr.aligned
  refine ⟨hr.aligned, ?_, fun x hx => ?_, ?_⟩
  · have hend : ((splitBlock h b.addr size).setUsed b.addr 1).heapEnd = h.heapEnd := splitBlock_heapEnd _ _ _
    rw [hend]
    exact hr.inside
  · rcases mem_take_addr hx with ⟨y, hy, haddr⟩ | ⟨hfit, haddr⟩
    · rw [← haddr]
      exact hr.apart y hy
    · rw [haddr]
      exact hcut hfit
  · refine hs.take_word h8 (by omega) hr.links (by omega) (fun hfit => ?_) hr.flag
    have hcut' := hcut hfit
    omega

theorem alloc (hr : Retired h bs k) (hs : Shape h bs) (hsize : size ≠ 0)
    (hok : kmemAlloc fuel ok size h = .ok (p, h')) (hp : p ≠ k + headerSize)
    (hcut : ∀ b, firstFree (align8 size) bs = some b → align8 size + blockMin ≤ b.size →
      k + headerSize ≠ b.payload + align8 size + 24) : ∃ bs', Shape h' bs' ∧ Retired h' bs' k := by
  obtain ⟨h₁, bs₁, b, hsearched, hfind, rfl, rfl⟩ := kmemAlloc_takes hs hsize hok
  have h8 := align8_dvd size
  have hkb : k ≠ b.addr := by
    intro hc
    rw [hc] at hp
    exact hp rfl
  have hs₁ := hsearched.shape hs
  obtain ⟨pre, post, rfl, -⟩ := firstFree_eq_some hfind
  generalize hlist : pre ++ b :: post = bs₁ at hsearched hfind
  refine ⟨_, hs₁.take h8, ?_⟩
  cases hsearched with
  | current =>
    subst hlist
    refine hr.take hs h8 hkb fun hfit => ?_
    have hne := hcut b hfind hfit
    simp only [headerSize] at hne
    omega
  | grown hnone hgrow =>
    have hr₁ := hr.grow hs hgrow
    have hbehind := hs.firstFree_grown hnone hfind
    have hin := hr.inside
    rw [← hlist] at hr₁
    refine hr₁.take hs₁ h8 hkb fun hfit => ?_
    simp only [headerSize] at hin
    omega

theorem free (hr : Retired h (pre ++ b :: post) k) (hs : Shape h (pre ++ b :: post))
    (hok : kmemFree b.payload h = .ok h') (hend : h'.heapEnd = h.heapEnd) :
    Retired h' (coalesce (pre ++ { b with used := false } :: post)) k := by
  have haligned := hr.aligned
  refine ⟨hr.aligned, hend ▸ hr.inside, fun x hx => ?_, ?_⟩
  · obtain ⟨y, hy, haddr⟩ := mem_freed_addr hx
    rw [← haddr]
    exact hr.apart y hy
  · have hword := hs.kmemFree_word hok (w := k + 4) (by omega) fun x hx => hr.links x (by simp [hx])
    rw [Heap.used, hword]
    split
    · rfl
    · exact hr.flag

/-- The block that is freed retires. -/
theorem freed (hs : Shape h (pre ++ b :: post)) (hok : kmemFree b.payload h = .ok h')
    (hend : h'.heapEnd = h.heapEnd) : Retired h' (coalesce (pre ++ { b with used := false } :: post)) b.addr := by
  have hb : b ∈ pre ++ b :: post := by simp
  have haligned := hs.addr_aligned hb
  have hstop := (hs.tiles.mem_bounds hb).2
  have hapart : ∀ x ∈ pre ++ b :: post, x.addr + 8 ≠ b.addr := fun x hx => hs.addr_ne hb hx
  refine ⟨haligned, ?_, fun x hx => ?_, ?_⟩
  · rw [hend]
    simp only [Block.stop] at hstop
    omega
  · obtain ⟨y, hy, haddr⟩ := mem_freed_addr hx
    rw [← haddr]
    exact hapart y hy
  · have hword := hs.kmemFree_word hok (w := b.addr + 4) (by omega) fun x hx => by
      have hne := hapart x (by simp [hx])
      omega
    rw [Heap.used, hword, if_pos rfl]

end Retired

/-- A heap with the pointers that were freed at some time. -/
structure HeapHistory extends HeapState where
  freed : Finset ℕ

/-- Pointers that were freed and have not been returned again. -/
def HeapHistory.stale (s : HeapHistory) : Finset ℕ := s.freed \ s.live

def HistoryInit (s : HeapHistory) : Prop := HeapInit s.toHeapState ∧ s.freed = ∅

/-- The freed pointers after an operation. -/
def HeapHistory.record (s : HeapHistory) : HeapOp → Finset ℕ
  | .free p => insert p s.freed
  | _ => s.freed

def HistoryStep (op : HeapOp) (s t : HeapHistory) : Prop :=
  HeapStep op s.toHeapState t.toHeapState ∧ t.freed = s.record op

/-- A run with its steps, each with the state it was taken in. -/
inductive HistoryRun (s : HeapHistory) : List (HeapHistory × HeapOp) → HeapHistory → Prop
  | nil : HistoryRun s [] s
  | snoc {l : List (HeapHistory × HeapOp)} {t u : HeapHistory} {op : HeapOp} (hrun : HistoryRun s l t)
      (hstep : HistoryStep op t u) : HistoryRun s (l ++ [(t, op)]) u

/-- Every pointer that is freed once more is noticed. -/
def DetectsDoubleFree (s : HeapHistory) : Prop :=
  ∀ p ∈ s.stale, kmemFree p s.heap = kpanic "kmem_free: double free detected"

/-- The used flag in front of a stale pointer `p` is the word at `p - 12`. An operation spares it if it
stores no other byte than zero there, and if the first block that fits is not cut such that the link
back in the header behind the cut, the word 12 bytes behind it, falls there. -/
def Spares (s : HeapHistory) : HeapOp → Prop
  | .write a v => v ≠ 0 → ∀ p ∈ s.stale, p ≠ a / 4 * 4 + 12
  | .alloc size => size ≠ 0 → ∀ bs, BlockList s.heap bs → ∀ b, firstFree (align8 size) bs = some b →
      align8 size + blockMin ≤ b.size → ∀ p ∈ s.stale, p ≠ b.payload + align8 size + 24
  | _ => True

variable {s t u : HeapHistory} {op : HeapOp} {steps : List (HeapHistory × HeapOp)}

structure DoubleFreeInvariant (s : HeapHistory) (bs : List Block) : Prop where
  heap : HeapInvariant s.toHeapState bs
  retired : ∀ p ∈ s.stale, ∃ a, p = a + headerSize ∧ Retired s.heap bs a

theorem kmemFree_panics : kmemFree (k + headerSize) h = kpanic "kmem_free: double free detected" ↔ h.used k = 0 := by
  have hne : k + headerSize ≠ 0 := by simp [headerSize]
  rw [kmemFree, if_neg hne, Nat.add_sub_cancel]
  dsimp only
  split
  · rename_i hflag
    exact iff_of_true rfl hflag
  · rename_i hflag
    refine iff_of_false (fun hok => ?_) hflag
    cases hok

theorem DoubleFreeInvariant.detects (hi : DoubleFreeInvariant s bs) : DetectsDoubleFree s := by
  intro p hp
  obtain ⟨a, rfl, hr⟩ := hi.retired p hp
  exact kmemFree_panics.mpr hr.flag

theorem mem_stale : p ∈ s.stale ↔ p ∈ s.freed ∧ p ∉ s.live := Finset.mem_sdiff

theorem DoubleFreeInvariant.alloc {live : Finset ℕ} (hi : DoubleFreeInvariant s bs)
    (hspares : Spares s (.alloc size)) (hok : kmemAlloc fuel ok size s.heap = .ok (p, h))
    (hlive : live = if p = 0 then s.live else insert p s.live) :
    ∃ bs', DoubleFreeInvariant ⟨⟨h, live⟩, s.freed⟩ bs' := by
  by_cases hsize : size = 0
  · obtain ⟨rfl, rfl⟩ : 0 = p ∧ s.heap = h := by simpa [kmemAlloc, hsize] using hok
    obtain rfl : live = s.live := hlive
    exact ⟨bs, hi⟩
  · obtain ⟨hp, bs', hi', -⟩ := hi.heap.alloc hsize hok
    rw [if_neg hp] at hlive
    subst hlive
    refine ⟨bs', hi', fun q hq => ?_⟩
    obtain ⟨hfreed, hnot⟩ := mem_stale.mp hq
    obtain ⟨hqp, hqlive⟩ := not_or.mp fun hc => hnot (Finset.mem_insert.mpr hc)
    have hstale : q ∈ s.stale := mem_stale.mpr ⟨hfreed, hqlive⟩
    obtain ⟨a, rfl, hr⟩ := hi.retired q hstale
    obtain ⟨bs'', hs'', hr''⟩ := hr.alloc hi.heap.shape hsize hok (Ne.symm hqp) fun b hfind hfit =>
      hspares hsize bs hi.heap.shape.blockList b hfind hfit _ hstale
    obtain rfl := hs''.blockList.unique hi'.shape.blockList
    exact ⟨a, rfl, hr''⟩

theorem DoubleFreeInvariant.brk {e : ℕ} (hi : DoubleFreeInvariant s bs)
    (hok : kmemBrk fuel ok nbytes s.heap = .ok (e, h)) : ∃ bs', DoubleFreeInvariant ⟨⟨h, s.live⟩, s.freed⟩ bs' := by
  by_cases hn : nbytes = 0
  · obtain ⟨-, rfl⟩ : s.heap.heapEnd = e ∧ s.heap = h := by simpa [kmemBrk, hn] using hok
    exact ⟨bs, hi⟩
  · rw [kmemBrk, if_neg hn] at hok
    obtain ⟨h₁, hgrow, hok⟩ := bind_eq_ok.mp hok
    obtain ⟨-, rfl⟩ := Prod.mk.inj (Except.ok.inj hok)
    obtain ⟨bs', hi', -⟩ := hi.heap.grow hgrow
    refine ⟨bs', hi', fun q hq => ?_⟩
    obtain ⟨a, rfl, hr⟩ := hi.retired q hq
    obtain rfl := (kmemHeapGrow_grown hi.heap.shape hgrow).1.blockList.unique hi'.shape.blockList
    exact ⟨a, rfl, hr.grow hi.heap.shape hgrow⟩

theorem DoubleFreeInvariant.free (hi : DoubleFreeInvariant s bs) (hp : p ∈ s.live)
    (hok : kmemFree p s.heap = .ok h) :
    ∃ bs', DoubleFreeInvariant ⟨⟨h, s.live.erase p⟩, insert p s.freed⟩ bs' := by
  obtain ⟨pre, b, post, rfl, hu, rfl⟩ := hi.heap.find hp
  obtain ⟨h', hok', hend, hi'⟩ := hi.heap.kmemFree hp
  obtain rfl := Except.ok.inj (hok'.symm.trans hok)
  rw [release_middle fun x hx => hi.heap.payload_ne hx] at hi'
  refine ⟨_, hi', fun q hq => ?_⟩
  obtain ⟨hfreed, hnot⟩ := mem_stale.mp hq
  by_cases hqb : q = b.payload
  · exact ⟨b.addr, hqb, .freed hi.heap.shape hok hend⟩
  · have hqlive : q ∉ s.live := fun hc => hnot (Finset.mem_erase.mpr ⟨hqb, hc⟩)
    have hqfreed : q ∈ s.freed := (Finset.mem_insert.mp hfreed).resolve_left hqb
    obtain ⟨a, rfl, hr⟩ := hi.retired q (mem_stale.mpr ⟨hqfreed, hqlive⟩)
    exact ⟨a, rfl, hr.free hi.heap.shape hok hend⟩

theorem doubleFreeInvariant_init (h₀ : HistoryInit s) : ∃ bs, DoubleFreeInvariant s bs := by
  obtain ⟨bs, hi⟩ := heapInvariant_init h₀.1
  refine ⟨bs, hi, fun p hp => ?_⟩
  have hfreed := (mem_stale.mp hp).1
  rw [h₀.2] at hfreed
  exact absurd hfreed (Finset.notMem_empty p)

/-- A step that spares the flags of the stale pointers keeps them all. -/
theorem doubleFreeInvariant_step (hi : DoubleFreeInvariant s bs) (hstep : HistoryStep op s t) (hspares : Spares s op) :
    ∃ bs', DoubleFreeInvariant t bs' := by
  obtain ⟨⟨th, tlive⟩, tfreed⟩ := t
  obtain ⟨hheap, hfreed⟩ := hstep
  dsimp only at hheap hfreed
  subst hfreed
  cases hheap with
  | alloc fuel ok hok => exact hi.alloc hspares hok rfl
  | brk fuel ok hok => exact hi.brk hok
  | free hp hok => exact hi.free hp hok
  | write hp ha ha' hv =>
    refine ⟨bs, hi.heap.write hp ha ha', fun q hq => ?_⟩
    obtain ⟨k, rfl, hr⟩ := hi.retired q hq
    refine ⟨k, rfl, hr.write fun hv hak => hspares hv _ hq ?_⟩
    rw [hak]
    rfl

/-- The cut of a block leaves the address of the block behind its own header. -/
theorem Shape.take_cut (hs : Shape h (pre ++ b :: post)) (h8 : 8 ∣ size) (hfit : size + blockMin ≤ b.size) :
    ((KmemDynAlloc.splitBlock h b.addr size).setUsed b.addr 1).mem (b.payload + size + 12) = b.addr := by
  have hs' := hs.take h8
  have hlist : pre ++ b.take size ++ post = (pre ++ [{ b with size, used := true }]) ++
      ⟨b.addr + headerSize + size, b.size - size - headerSize, false⟩ :: post := by
    rw [Block.take, if_pos hfit]
    simp
  rw [hlist] at hs'
  obtain ⟨hcut, -⟩ := hs'.at
  have hprev := hcut.prev
  rw [lastOr_append] at hprev
  exact hprev

/-- A step that does not spare the flags makes one of them unreadable. -/
theorem doubleFree_missed (hs : HeapReachable s.toHeapState) (hstep : HistoryStep op s t) (hspares : ¬Spares s op) :
    ¬DetectsDoubleFree t := by
  obtain ⟨bs, hi⟩ := HeapReachable.invariant hs
  obtain ⟨⟨th, tlive⟩, tfreed⟩ := t
  obtain ⟨hheap, hfreed⟩ := hstep
  dsimp only at hheap hfreed
  subst hfreed
  intro hdetects
  cases hheap with
  | @alloc _ _ fuel ok size p hok =>
    simp only [Spares, not_forall, not_not] at hspares
    obtain ⟨hsize, bs', hblocks, b, hfind, hfit, q, hq, rfl⟩ := hspares
    obtain rfl := hblocks.unique hi.shape.blockList
    obtain ⟨h₁, bs₁, c, hsearched, hfind', rfl, rfl⟩ := kmemAlloc_takes hi.shape hsize hok
    cases hsearched with
    | grown hnone hgrow =>
      rw [hnone] at hfind
      cases hfind
    | current =>
      obtain rfl := Option.some.inj (hfind.symm.trans hfind')
      obtain ⟨pre, post, rfl, -⟩ := firstFree_eq_some hfind
      have hcut := hi.shape.take_cut (align8_dvd size) hfit
      have hpos : 0 < b.addr := hi.shape.addr_pos (by simp)
      have hp : b.payload ≠ 0 := by
        simp only [Block.payload]
        omega
      have hstale : b.payload + align8 size + 8 + headerSize ∈ HeapHistory.stale
          ⟨⟨(splitBlock s.heap b.addr (align8 size)).setUsed b.addr 1,
            if b.payload = 0 then s.live else insert b.payload s.live⟩, s.record (.alloc size)⟩ := by
        rw [if_neg hp]
        obtain ⟨hqfreed, hqlive⟩ := mem_stale.mp hq
        refine mem_stale.mpr ⟨hqfreed, fun hc => ?_⟩
        rcases Finset.mem_insert.mp hc with hc | hc
        · simp only [headerSize] at hc
          omega
        · exact hqlive hc
      have hflag := kmemFree_panics.mp (hdetects _ hstale)
      have hword : b.payload + align8 size + 8 + 4 = b.payload + align8 size + 12 := rfl
      rw [Heap.used, hword, hcut] at hflag
      omega
  | brk fuel ok hok => exact hspares trivial
  | free hp hok => exact hspares trivial
  | @write _ p a v hp ha ha' hbyte =>
    simp only [Spares, not_forall, not_not] at hspares
    obtain ⟨hv, q, hq, rfl⟩ := hspares
    obtain ⟨b, hb, -, rfl⟩ := (hi.live p).mp hp
    have hlow : headerSize ≤ b.payload := Nat.le_add_left _ _
    obtain ⟨k, hk⟩ : ∃ k, a / 4 * 4 = k + 4 := by
      refine ⟨a / 4 * 4 - 4, ?_⟩
      simp only [headerSize] at hlow
      omega
    rw [hk] at hq
    have hflag := kmemFree_panics.mp (hdetects (k + headerSize) hq)
    rw [Heap.used, Heap.storeByte, Heap.store_mem, hk, Function.update_self] at hflag
    exact (putByte_pos hv).ne' hflag

theorem HistoryRun.reachable (h₀ : HistoryInit s) (hrun : HistoryRun s steps t) : HeapReachable t.toHeapState := by
  induction hrun with
  | nil => exact .start h₀.1
  | snoc hrun hstep ih => exact .next ih ⟨_, hstep.1⟩

theorem HistoryRun.invariant (h₀ : HistoryInit s) (hrun : HistoryRun s steps t)
    (hspares : ∀ x ∈ steps, Spares x.1 x.2) : ∃ bs, DoubleFreeInvariant t bs := by
  induction hrun with
  | nil => exact doubleFreeInvariant_init h₀
  | @snoc l t u op hrun hstep ih =>
    obtain ⟨bs, hi⟩ := ih fun x hx => hspares x (List.mem_append_left _ hx)
    exact doubleFreeInvariant_step hi hstep (hspares (t, op) (by simp))

/-- A state of a run is reached by the steps before it. -/
theorem HistoryRun.before (hrun : HistoryRun s steps t) {x : HeapHistory × HeapOp} (hx : x ∈ steps) :
    ∃ l, HistoryRun s l x.1 ∧ l ⊆ steps := by
  induction hrun with
  | nil => exact absurd hx List.not_mem_nil
  | @snoc l t u op hrun hstep ih =>
    rcases List.mem_append.mp hx with hx | hx
    · obtain ⟨l', hl', hsub⟩ := ih hx
      exact ⟨l', hl', List.subset_append_of_subset_left _ hsub⟩
    · obtain rfl := List.mem_singleton.mp hx
      exact ⟨l, hrun, List.subset_append_left _ _⟩

/-- In every history, the free of a pointer that was freed before and not returned again is noticed in
all states if and only if all steps spare the flags of such pointers. -/
theorem double_free_detected_iff (s t : HeapHistory) (steps : List (HeapHistory × HeapOp)) (h₀ : HistoryInit s)
    (hrun : HistoryRun s steps t) : (∀ x ∈ steps, Spares x.1 x.2) ↔
      (∀ x ∈ steps, DetectsDoubleFree x.1) ∧ DetectsDoubleFree t := by
  constructor
  · intro hspares
    refine ⟨fun x hx => ?_, ?_⟩
    · obtain ⟨l, hl, hsub⟩ := hrun.before hx
      obtain ⟨bs, hi⟩ := hl.invariant h₀ fun y hy => hspares y (hsub hy)
      exact hi.detects
    · obtain ⟨bs, hi⟩ := hrun.invariant h₀ hspares
      exact hi.detects
  · rintro ⟨hsteps, ht⟩
    induction hrun with
    | nil => exact fun x hx => absurd hx List.not_mem_nil
    | @snoc l t u op hrun hstep ih =>
      intro x hx
      rcases List.mem_append.mp hx with hx | hx
      · exact ih (fun y hy => hsteps y (List.mem_append_left _ hy)) (hsteps (t, op) (by simp)) x hx
      · obtain rfl := List.mem_singleton.mp hx
        by_contra hno
        exact doubleFree_missed (hrun.reachable h₀) hstep hno ht

theorem HistoryRun.alloc {live freed : Finset ℕ} (hrun : HistoryRun s steps ⟨⟨h, live⟩, freed⟩) (hp : p ≠ 0)
    (hok : kmemAlloc fuel ok size h = .ok (p, h')) :
    HistoryRun s (steps ++ [(⟨⟨h, live⟩, freed⟩, .alloc size)]) ⟨⟨h', insert p live⟩, freed⟩ := by
  have hheap := HeapStep.alloc (s := ⟨h, live⟩) fuel ok hok
  rw [if_neg hp] at hheap
  exact .snoc hrun ⟨hheap, rfl⟩

theorem HistoryRun.free {live freed : Finset ℕ} (hrun : HistoryRun s steps ⟨⟨h, live⟩, freed⟩) (hp : p ∈ live)
    (hok : kmemFree p h = .ok h') :
    HistoryRun s (steps ++ [(⟨⟨h, live⟩, freed⟩, .free p)]) ⟨⟨h', live.erase p⟩, insert p freed⟩ :=
  .snoc hrun ⟨.free hp hok, rfl⟩

/-- The history of one allocation and its free. -/
theorem double_free_detected_once : ∃ s steps t, HistoryInit s ∧ HistoryRun s steps t ∧ t.stale = {0xC0000010} ∧
    ((∀ x ∈ steps, Spares x.1 x.2) ↔ (∀ x ∈ steps, DetectsDoubleFree x.1) ∧ DetectsDoubleFree t) := by
  obtain ⟨h₀, hinit, -⟩ := heap_boot
  obtain ⟨h₁, h₂, hok₁, hok₂⟩ : ∃ h₁ h₂, kmemAlloc 4 (fun _ => true) 16 h₀ = .ok (0xC0000010, h₁) ∧
      kmemFree 0xC0000010 h₁ = .ok h₂ := by
    obtain rfl := Except.ok.inj hinit
    exact ⟨_, _, rfl, rfl⟩
  have hstart : HistoryInit ⟨⟨h₀, ∅⟩, ∅⟩ := ⟨⟨rfl, 2, fun _ => true, fun _ => 0, hinit⟩, rfl⟩
  have hempty : HistoryRun ⟨⟨h₀, ∅⟩, ∅⟩ [] ⟨⟨h₀, ∅⟩, ∅⟩ := .nil
  have hrun := (hempty.alloc (by decide) hok₁).free (Finset.mem_insert_self _ _) hok₂
  exact ⟨_, _, _, hstart, hrun, by simp [HeapHistory.stale], double_free_detected_iff _ _ _ hstart hrun⟩

/-- Two blocks of 16 bytes, both freed, and an allocation of 8 bytes: the header behind it covers the flag
of the second block, and that block can be freed again. -/
theorem double_free_missed : ∃ s steps t h, HistoryInit s ∧ HistoryRun s steps t ∧
    steps.map Prod.snd = [.alloc 16, .alloc 16, .free 0xC0000010, .free 0xC0000030, .alloc 8] ∧
    0xC0000030 ∈ t.stale ∧ kmemFree 0xC0000030 t.heap = .ok h ∧ ¬DetectsDoubleFree t := by
  obtain ⟨h₀, hinit, -⟩ := heap_boot
  obtain ⟨h₁, h₂, h₃, h₄, h₅, h₆, hok₁, hok₂, hok₃, hok₄, hok₅, hok₆⟩ : ∃ h₁ h₂ h₃ h₄ h₅ h₆,
      kmemAlloc 4 (fun _ => true) 16 h₀ = .ok (0xC0000010, h₁) ∧
      kmemAlloc 4 (fun _ => true) 16 h₁ = .ok (0xC0000030, h₂) ∧
      kmemFree 0xC0000010 h₂ = .ok h₃ ∧ kmemFree 0xC0000030 h₃ = .ok h₄ ∧
      kmemAlloc 4 (fun _ => true) 8 h₄ = .ok (0xC0000010, h₅) ∧ kmemFree 0xC0000030 h₅ = .ok h₆ := by
    obtain rfl := Except.ok.inj hinit
    exact ⟨_, _, _, _, _, _, rfl, rfl, rfl, rfl, rfl, rfl⟩
  have hstart : HistoryInit ⟨⟨h₀, ∅⟩, ∅⟩ := ⟨⟨rfl, 2, fun _ => true, fun _ => 0, hinit⟩, rfl⟩
  have hempty : HistoryRun ⟨⟨h₀, ∅⟩, ∅⟩ [] ⟨⟨h₀, ∅⟩, ∅⟩ := .nil
  have hallocs := (hempty.alloc (by decide) hok₁).alloc (by decide) hok₂
  have hfrees := (hallocs.free (by decide) hok₃).free (by decide) hok₄
  have hrun := hfrees.alloc (by decide) hok₅
  refine ⟨_, _, _, h₆, hstart, hrun, rfl, by simp [HeapHistory.stale], hok₆, fun hdetects => ?_⟩
  have hpanic := hdetects 0xC0000030 (by simp [HeapHistory.stale])
  rw [hok₆] at hpanic
  cases hpanic

end HekaOS.KmemDynAlloc
