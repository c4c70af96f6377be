import Mathlib.Data.Finset.Basic
import HekaOS.KernelMemory
import HekaOS.PointerChain

/-!
# The chunk pool

`kmalloc.c` serves requests of at most 256 bytes from pool pages. A pool page starts with
an 8-byte header (`obj_size`, `free_count`, `total_count`) and is cut into chunks of one of
six sizes; the free chunks of a size form a list through their first words. A page whose
chunks are all free again is taken off the list and unmapped.

Memory cells are indexed by the byte address of the field they hold. `mapped` records the
pages `alloc_page` has mapped and `free_page` has not unmapped.
-/

namespace HekaOS.Kmalloc
open MachineWord KernelMemory PointerChain

def kcpoolVirtBase : ℕ := 0xD0000000
def kcpoolVirtMax : ℕ := 0xEEFFFFFF
def pageSize : ℕ := 4096

/-- `CPOOL_HDR_SIZE` -/
def cpoolHdrSize : ℕ := 8

/-- `CPOOL_DATA_SIZE` -/
def cpoolDataSize : ℕ := pageSize - cpoolHdrSize

/-- `KMEM_CACHE_COUNT` -/
def kmemCacheCount : ℕ := 6

def cacheSizes (i : ℕ) : ℕ := [8, 16, 32, 64, 128, 256].getD i 0

structure Pool where
  mem : ℕ → ℕ
  /-- `caches[i].obj_size` -/
  objSize : ℕ → ℕ
  /-- `caches[i].free_list` -/
  freeList : ℕ → ℕ
  /-- `cpool_vptr` -/
  vptr : ℕ
  /-- `cpool_page_count` -/
  pageCount : ℕ
  /-- `cpool_used_count` -/
  usedCount : ℕ
  mapped : Finset ℕ

/-- The page of an address: `addr & ~0xFFF`. -/
def pageOf (a : ℕ) : ℕ := clearLow 12 a

namespace Pool

def hdrObjSize (p : Pool) (page : ℕ) : ℕ := p.mem page
def hdrFreeCount (p : Pool) (page : ℕ) : ℕ := p.mem (page + 4)
def hdrTotalCount (p : Pool) (page : ℕ) : ℕ := p.mem (page + 6)

/-- The link of a free chunk, its first word. -/
def next (p : Pool) (chunk : ℕ) : Option ℕ := ptr (p.mem chunk)

def store (p : Pool) (a v : ℕ) : Pool := { p with mem := Function.update p.mem a v }

def setFreeList (p : Pool) (i v : ℕ) : Pool := { p with freeList := Function.update p.freeList i v }

end Pool

/-- `cache_index`: the first cache whose chunks are large enough. -/
def cacheIndex (p : Pool) (size : ℕ) : Option ℕ :=
  (List.range kmemCacheCount).find? fun i => size ≤ p.objSize i

def cacheIndexExact (p : Pool) (objSize : ℕ) : Kernel ℕ :=
  match (List.range kmemCacheCount).find? fun i => p.objSize i = objSize with
  | some i => .ok i
  | none => kpanic "kfree: invalid obj_size in chunk pool header"

/-- Thread `n` chunks of a fresh page into a list, from `obj` on. -/
def threadChunks (objSize : ℕ) : ℕ → ℕ → (ℕ → ℕ) → ℕ → ℕ
  | 0, _, mem => mem
  | n + 1, obj, mem =>
    threadChunks objSize n (obj + objSize)
      (Function.update mem obj (if 0 < n then obj + objSize else 0))

def cpoolRefill (allocPage : Bool) (idx : ℕ) (p : Pool) : Kernel Pool :=
  if add32 p.vptr pageSize > kcpoolVirtMax then kpanic "kmalloc: chunk pool zone exhausted"
  else if !allocPage then kpanic "kmalloc: alloc_page failed in cpool_refill"
  else
    let objSize := p.objSize idx
    let n := cpoolDataSize / objSize
    let q := ((p.store p.vptr objSize).store (p.vptr + 4) (n % 2 ^ 16)).store (p.vptr + 6) (n % 2 ^ 16)
    let q := { q with mem := threadChunks objSize n (p.vptr + cpoolHdrSize) q.mem }
    .ok { q.setFreeList idx (p.vptr + cpoolHdrSize) with
      vptr := add32 p.vptr pageSize
      pageCount := p.pageCount + 1
      mapped := insert p.vptr p.mapped }

/-- `kmalloc_init`, over whatever the memory held before. -/
def kmallocInit (mem : ℕ → ℕ) : Pool where
  mem := mem
  objSize := cacheSizes
  freeList := fun _ => 0
  vptr := kcpoolVirtBase
  pageCount := 0
  usedCount := 0
  mapped := ∅

/-- Take the first chunk off a nonempty free list. -/
def popChunk (idx : ℕ) (p : Pool) : ℕ × Pool :=
  let chunk := p.freeList idx
  let hdr := pageOf chunk
  let p := p.setFreeList idx (p.mem chunk)
  let p := p.store (hdr + 4) ((p.hdrFreeCount hdr + (2 ^ 16 - 1)) % 2 ^ 16)
  (chunk, { p with usedCount := p.usedCount + 1 })

def kmalloc (allocPage : Bool) (size : ℕ) (p : Pool) : Kernel (ℕ × Pool) :=
  if size = 0 then .ok (0, p)
  else if size > 256 then kpanic "kmalloc: size > 256, use kmem_alloc for large allocations"
  else
    -- the search fails for no size up to 256
    let idx := (cacheIndex p size).getD 0
    if p.freeList idx = 0 then do
      let p ← cpoolRefill allocPage idx p
      .ok (popChunk idx p)
    else .ok (popChunk idx p)

/-- Where a link is kept: in the cache (`none`) or in the first word of a chunk. -/
def readLink (idx : ℕ) (p : Pool) : Option ℕ → ℕ
  | none => p.freeList idx
  | some a => p.mem a

def writeLink (idx : ℕ) (p : Pool) (loc : Option ℕ) (v : ℕ) : Pool :=
  match loc with
  | none => p.setFreeList idx v
  | some a => p.store a v

/-- The loop of `kfree` that takes every chunk of a page off the free list. -/
def unlinkPage (idx base : ℕ) : ℕ → Option ℕ → Pool → Kernel Pool
  | 0, _, _ => .error .spin
  | fuel + 1, cur, p =>
    let chunk := readLink idx p cur
    if chunk = 0 then .ok p
    else if pageOf chunk = base then
      unlinkPage idx base fuel cur (writeLink idx p cur (p.mem chunk))
    else unlinkPage idx base fuel (some chunk) p

/-- Put a chunk back on the free list of its size. -/
def pushChunk (idx addr : ℕ) (p : Pool) : Pool :=
  let hdr := pageOf addr
  let p := (p.store addr (p.freeList idx)).setFreeList idx addr
  let p := p.store (hdr + 4) ((p.hdrFreeCount hdr + 1) % 2 ^ 16)
  { p with usedCount := p.usedCount - 1 }

def kfree (fuel addr : ℕ) (p : Pool) : Kernel Pool :=
  if addr = 0 then .ok p
  else do
    let hdr := pageOf addr
    let idx ← cacheIndexExact p (p.hdrObjSize hdr)
    let p := pushChunk idx addr p
    if p.hdrFreeCount hdr = p.hdrTotalCount hdr then
      let p ← unlinkPage idx hdr fuel none p
      .ok { p with mapped := p.mapped.erase hdr, pageCount := p.pageCount - 1 }
    else .ok p

def ksize (p : Pool) (addr : ℕ) : ℕ := if addr = 0 then 0 else p.hdrObjSize (pageOf addr)

end HekaOS.Kmalloc
