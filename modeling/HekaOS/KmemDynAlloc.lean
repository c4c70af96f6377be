import HekaOS.KernelMemory
import HekaOS.PointerChain

/-!
# The kernel heap

The general-purpose allocator of `kmem_dyn_alloc.c`: a doubly linked list of blocks,
searched first-fit, split on allocation and merged with both neighbours on free. A
block is a 16-byte header (`size`, `used`, `next`, `prev`) followed by its payload,
and block pointers are the addresses of headers.

Pages come from `alloc_page`. It either maps the page it is given or returns NULL,
which `ok` decides call by call, and it returns NULL once all frames are used up.
-/

namespace HekaOS.KmemDynAlloc
open MachineWord KernelMemory PointerChain

def kheapVirtBase : ℕ := 0xC0000000
def kheapVirtMax : ℕ := 0xCFFFFFFF
def pageSize : ℕ := 4096

/-- Frames managed by the physical allocator. -/
def physRegionFrames : ℕ := 15360

/-- `sizeof (kmem_block_t)`. -/
def headerSize : ℕ := 16

/-- `BLOCK_MIN`: a header and eight bytes of payload. -/
def blockMin : ℕ := headerSize + 8

/-- `ALIGN8`. -/
def align8 (size : ℕ) : ℕ := clearLow 3 (add32 size 7)

structure Heap where
  mem : ℕ → ℕ
  /-- `kmem_heap_head` -/
  head : ℕ
  /-- `kmem_heap_end` -/
  heapEnd : ℕ
  /-- Pages obtained from `alloc_page` so far. -/
  mapped : ℕ

namespace Heap

def size (h : Heap) (b : ℕ) : ℕ := h.mem b
def used (h : Heap) (b : ℕ) : ℕ := h.mem (b + 4)
def next (h : Heap) (b : ℕ) : Option ℕ := ptr (h.mem (b + 8))
def prev (h : Heap) (b : ℕ) : Option ℕ := ptr (h.mem (b + 12))

def store (h : Heap) (a v : ℕ) : Heap := { h with mem := Function.update h.mem a v }

/-- A byte is stored, which changes the word it lies in. -/
def storeByte (h : Heap) (a v : ℕ) : Heap := h.store (a / 4 * 4) (putByte (a % 4) v (h.mem (a / 4 * 4)))

def setSize (h : Heap) (b v : ℕ) : Heap := h.store b v
def setUsed (h : Heap) (b v : ℕ) : Heap := h.store (b + 4) v
def setNext (h : Heap) (b v : ℕ) : Heap := h.store (b + 8) v
def setPrev (h : Heap) (b v : ℕ) : Heap := h.store (b + 12) v

@[simp] theorem store_head (h : Heap) (a v : ℕ) : (h.store a v).head = h.head := rfl
@[simp] theorem store_heapEnd (h : Heap) (a v : ℕ) : (h.store a v).heapEnd = h.heapEnd := rfl
@[simp] theorem store_mapped (h : Heap) (a v : ℕ) : (h.store a v).mapped = h.mapped := rfl
@[simp] theorem store_mem (h : Heap) (a v : ℕ) :
    (h.store a v).mem = Function.update h.mem a v := rfl

/-- `if (nxt) nxt->prev = blk;` -/
def linkBack (h : Heap) (nxt blk : ℕ) : Heap := if nxt ≠ 0 then h.setPrev nxt blk else h

@[simp] theorem linkBack_head (h : Heap) (nxt blk : ℕ) : (h.linkBack nxt blk).head = h.head := by
  unfold linkBack; split <;> rfl

@[simp] theorem linkBack_heapEnd (h : Heap) (nxt blk : ℕ) :
    (h.linkBack nxt blk).heapEnd = h.heapEnd := by unfold linkBack; split <;> rfl

@[simp] theorem linkBack_mapped (h : Heap) (nxt blk : ℕ) :
    (h.linkBack nxt blk).mapped = h.mapped := by unfold linkBack; split <;> rfl

theorem linkBack_mem_of_ne (h : Heap) {nxt w : ℕ} (blk : ℕ) (hw : nxt ≠ 0 → w ≠ nxt + 12) :
    (h.linkBack nxt blk).mem w = h.mem w := by
  unfold linkBack
  split
  · exact Function.update_of_ne (hw ‹_›) _ _
  · rfl

theorem linkBack_mem_self (h : Heap) {nxt : ℕ} (blk : ℕ) (hn : nxt ≠ 0) :
    (h.linkBack nxt blk).mem (nxt + 12) = blk := by simp [linkBack, hn, setPrev]

/-- A block can take a request when it is free and large enough. -/
def fits (h : Heap) (size b : ℕ) : Bool := h.used b = 0 && size ≤ h.size b

end Heap

/-- The page loop of `kmem_heap_grow`. -/
def allocPages (ok : ℕ → Bool) : ℕ → ℕ → Heap → Kernel Heap
  | 0, _, h => .ok h
  | n + 1, vaddr, h =>
    if ok vaddr && h.mapped < physRegionFrames then
      allocPages ok n (add32 vaddr pageSize) { h with mapped := h.mapped + 1 }
    else kpanic "kmem_dyn_alloc: alloc_page failed in heap_grow"

/-- Number of pages `kmem_heap_grow` asks for. -/
def growPages (nbytes : ℕ) : ℕ :=
  let pages := (nbytes + headerSize + pageSize - 1) % wordSize / pageSize
  if pages = 0 then 1 else pages

/-- The header of a new free block at the heap end. -/
def writeBlock (h : Heap) (last : Option ℕ) (total : ℕ) : Heap :=
  let blk := h.heapEnd
  let h := (h.setSize blk (sub32 total headerSize)).setUsed blk 0
  (h.setNext blk 0).setPrev blk (last.getD 0)

/-- Extend a free last block that ends at the heap end, else append a block there. -/
def appendPages (h : Heap) (last : Option ℕ) (total : ℕ) : Heap :=
  match last with
  | some l =>
    if h.used l = 0 ∧ l + headerSize + h.size l = h.heapEnd then
      h.setSize l (add32 (h.size l) total)
    else (writeBlock h last total).setNext l h.heapEnd
  | none => { writeBlock h last total with head := h.heapEnd }

@[simp] theorem appendPages_heapEnd (h : Heap) (last : Option ℕ) (total : ℕ) :
    (appendPages h last total).heapEnd = h.heapEnd := by
  unfold appendPages
  split
  · split <;> rfl
  · rfl

@[simp] theorem appendPages_mapped (h : Heap) (last : Option ℕ) (total : ℕ) :
    (appendPages h last total).mapped = h.mapped := by
  unfold appendPages
  split
  · split <;> rfl
  · rfl

def kmemHeapGrow (fuel : ℕ) (ok : ℕ → Bool) (nbytes : ℕ) (h : Heap) : Kernel Heap := do
  let total := growPages nbytes * pageSize % wordSize
  if add32 h.heapEnd total > kheapVirtMax then
    kpanic "kmem_dyn_alloc: kernel heap limit reached"
  else
    let h ← allocPages ok (growPages nbytes) h.heapEnd h
    let last ← ended (walkLast h.next fuel none (ptr h.head))
    let h := appendPages h last total
    .ok { h with heapEnd := add32 h.heapEnd total }

/-- `kmem_dyn_alloc_init`, over whatever the memory held before. -/
def kmemDynAllocInit (fuel : ℕ) (ok : ℕ → Bool) (mem : ℕ → ℕ) : Kernel Heap :=
  kmemHeapGrow fuel ok 0 { mem, head := 0, heapEnd := kheapVirtBase, mapped := 0 }

def kmemBrk (fuel : ℕ) (ok : ℕ → Bool) (nbytes : ℕ) (h : Heap) : Kernel (ℕ × Heap) :=
  if nbytes = 0 then .ok (h.heapEnd, h)
  else do
    let h ← kmemHeapGrow fuel ok nbytes h
    .ok (h.heapEnd, h)

/-- Cut a block behind `size` bytes of payload when the rest can hold a block. -/
def splitBlock (h : Heap) (blk size : ℕ) : Heap :=
  if size + blockMin ≤ h.size blk then
    let split := blk + headerSize + size
    let nxt := h.mem (blk + 8)
    let h := h.setSize split (h.size blk - size - headerSize)
    let h := ((h.setUsed split 0).setNext split nxt).setPrev split blk
    ((h.linkBack nxt split).setNext blk split).setSize blk size
  else h

@[simp] theorem splitBlock_heapEnd (h : Heap) (blk size : ℕ) : (splitBlock h blk size).heapEnd = h.heapEnd := by
  unfold splitBlock
  split
  · exact Heap.linkBack_heapEnd _ _ _
  · rfl

/-- The first-fit search of `kmem_alloc`. -/
def firstFit (fuel : ℕ) (h : Heap) (size : ℕ) : Kernel (Option ℕ) :=
  ended (find h.next (h.fits size) fuel (ptr h.head))

def kmemAlloc (fuel : ℕ) (ok : ℕ → Bool) (size : ℕ) (h : Heap) : Kernel (ℕ × Heap) :=
  if size = 0 then .ok (0, h)
  else do
    let size := align8 size
    let take (h : Heap) (blk : ℕ) : ℕ × Heap :=
      (blk + headerSize, (splitBlock h blk size).setUsed blk 1)
    match ← firstFit fuel h size with
    | some blk => .ok (take h blk)
    | none =>
      let h ← kmemHeapGrow fuel ok size h
      match ← firstFit fuel h size with
      | some blk => .ok (take h blk)
      | none => kpanic "kmem_dyn_alloc: out of memory"

/-- A block takes over the block behind it. -/
def joinBlocks (h : Heap) (left right : ℕ) : Heap :=
  let after := h.mem (right + 8)
  let h := h.setSize left (add32 (h.size left) (headerSize + h.size right))
  (h.setNext left after).linkBack after left

def mergeNext (h : Heap) (blk : ℕ) : Heap :=
  match h.next blk with
  | some nxt => if h.used nxt = 0 then joinBlocks h blk nxt else h
  | none => h

def mergePrev (h : Heap) (blk : ℕ) : Heap :=
  match h.prev blk with
  | some prv => if h.used prv = 0 then joinBlocks h prv blk else h
  | none => h

@[simp] theorem joinBlocks_heapEnd (h : Heap) (left right : ℕ) :
    (joinBlocks h left right).heapEnd = h.heapEnd := by
  dsimp only [joinBlocks]
  rw [Heap.linkBack_heapEnd]
  rfl

@[simp] theorem mergeNext_heapEnd (h : Heap) (blk : ℕ) : (mergeNext h blk).heapEnd = h.heapEnd := by
  unfold mergeNext
  split
  · split
    · exact joinBlocks_heapEnd _ _ _
    · rfl
  · rfl

@[simp] theorem mergePrev_heapEnd (h : Heap) (blk : ℕ) : (mergePrev h blk).heapEnd = h.heapEnd := by
  unfold mergePrev
  split
  · split
    · exact joinBlocks_heapEnd _ _ _
    · rfl
  · rfl

def kmemFree (addr : ℕ) (h : Heap) : Kernel Heap :=
  if addr = 0 then .ok h
  else
    let blk := addr - headerSize
    if h.used blk = 0 then kpanic "kmem_free: double free detected"
    else .ok (mergePrev (mergeNext (h.setUsed blk 0) blk) blk)

def kmemSize (h : Heap) (addr : ℕ) : ℕ := if addr = 0 then 0 else h.size (addr - headerSize)

end HekaOS.KmemDynAlloc
