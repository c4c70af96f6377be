import HekaOS.Kmalloc
import HekaOS.Paging

/-!
# The page-granular allocator

`vmalloc.c`: a bitmap with one bit for each of the pages from `VMALLOC_BASE` to `VMALLOC_MAX`, and
a list of the regions handed out. The nodes of the list are objects of the chunk pool (fields
`start`, `npages` and `next`), and the pages are mapped in the current directory. The chunk
pool takes its own pages from `alloc_page` as well.
-/

namespace HekaOS.Vmalloc
open MachineWord KernelMemory WordBitmap FirstFit AddressMap
open Paging (PagingState allocPage freePage pagePresent pageRw)
open Kmalloc (Pool pageOf cacheIndex kcpoolVirtMax)
open Tasks (pageSize)

/-- `VMALLOC_PAGES` -/
def vmallocPages : ℕ := (vmallocMax - vmallocBase + 1) / pageSize

/-- `BITMAP_WORDS` -/
def bitmapWords : ℕ := (vmallocPages + 31) / 32

/-- `sizeof (struct vmalloc_region)` -/
def regionSize : ℕ := 12

structure VmState where
  bitmap : Bitmap
  /-- `region_list` -/
  regionList : ℕ
  pool : Pool
  paging : PagingState

/-- `vmalloc_init`, over whatever is behind the bitmap. -/
def vmallocInit (old : Bitmap) : Bitmap := fun w => if w < bitmapWords then 0#32 else old w

/-- `kmalloc` is about to ask for a page. -/
def poolGrows (size : ℕ) (p : Pool) : Bool :=
  decide (p.freeList ((cacheIndex p size).getD 0) = 0 ∧ add32 p.vptr pageSize ≤ kcpoolVirtMax)

/-- The `alloc_page` of `cpool_refill`. -/
def takePoolPage (size : ℕ) (s : VmState) : Kernel (ℕ × PagingState) :=
  if poolGrows size s.pool then allocPage s.pool.vptr (pagePresent ||| pageRw) s.paging else .ok (0, s.paging)

/-- `kmalloc`, with the page it may take. -/
def kmallocObject (size : ℕ) (s : VmState) : Kernel (ℕ × VmState) := do
  let r ← takePoolPage size s
  let c ← Kmalloc.kmalloc (decide (r.1 ≠ 0)) size s.pool
  .ok (c.1, { s with pool := c.2, paging := r.2 })

/-- The `free_page` of `kfree`, which leaves the pool `q`. -/
def dropPoolPage (addr : ℕ) (q : Pool) (s : VmState) : Kernel PagingState :=
  if pageOf addr ∈ s.pool.mapped ∧ pageOf addr ∉ q.mapped then freePage (pageOf addr) s.paging else .ok s.paging

/-- `kfree`, with the page it may give back. -/
def kfreeObject (fuel addr : ℕ) (s : VmState) : Kernel VmState := do
  let q ← Kmalloc.kfree fuel addr s.pool
  let paging ← dropPoolPage addr q s
  .ok { s with pool := q, paging := paging }

/-- The search in one word of the bitmap; a full word is skipped. -/
def scanWord (bm : Bitmap) (npages : ℕ) (st : ℕ × ℕ) (w : ℕ) : Except ℕ (ℕ × ℕ) :=
  if bm w = BitVec.allOnes 32 then .ok (0, st.2)
  else (List.range 32).foldlM (fun st b =>
    if vmallocPages ≤ w * 32 + b then .ok st
    else scanStep (fun i => !bitmapTest bm i) npages st (w * 32 + b)) st

/-- The first-fit search of `vmalloc`. -/
def findRun (bm : Bitmap) (npages : ℕ) : Option ℕ :=
  match (List.range bitmapWords).foldlM (scanWord bm npages) (0, 0) with
  | .error start => some start
  | .ok _ => none

/-- One page of a new region. -/
def mapRegionPage (s : VmState) (j : ℕ) : Kernel VmState := do
  let r ← allocPage (vmallocBase + j * pageSize) (pagePresent ||| pageRw) s.paging
  if r.1 = 0 then kpanic "vmalloc: alloc_page failed"
  else .ok { s with paging := r.2, bitmap := bitmapSet s.bitmap j }

/-- Fill in a node and put it in front of the list. -/
def enterRegion (region start npages : ℕ) (s : VmState) : VmState :=
  { s with
    pool := ((s.pool.store region start).store (region + 4) npages).store (region + 8) s.regionList
    regionList := region }

def vmalloc (fuel npages : ℕ) (s : VmState) : Kernel (ℕ × VmState) :=
  if npages = 0 then .ok (0, s)
  else do
    let r ← kmallocObject regionSize s
    if r.1 = 0 then .ok (0, r.2)
    else match findRun r.2.bitmap npages with
      | some start => do
        let s ← (List.range' start npages).foldlM mapRegionPage r.2
        .ok (vmallocBase + start * pageSize, enterRegion r.1 start npages s)
      | none => do
        let s ← kfreeObject fuel r.1 r.2
        .ok (0, s)

/-- The field `next` of a node. -/
def regionNext (p : Pool) (region : ℕ) : Option ℕ := ptr (p.mem (region + 8))

/-- The search of `vfree`: the node with the given start, and the one before it. -/
def findRegion (p : Pool) (idx : ℕ) : ℕ → Option ℕ → Option ℕ → Option (Option ℕ × Option ℕ)
  | 0, _, _ => none
  | _ + 1, prev, none => some (prev, none)
  | fuel + 1, prev, some cur =>
    if p.mem cur = idx then some (prev, some cur) else findRegion p idx fuel (some cur) (regionNext p cur)

def unlinkRegion (prev : Option ℕ) (cur : ℕ) (s : VmState) : VmState :=
  match prev with
  | some region => { s with pool := s.pool.store (region + 8) (s.pool.mem (cur + 8)) }
  | none => { s with regionList := s.pool.mem (cur + 8) }

/-- One page of a dead region. -/
def unmapRegionPage (s : VmState) (j : ℕ) : Kernel VmState := do
  let paging ← freePage (vmallocBase + j * pageSize) s.paging
  .ok { s with paging := paging, bitmap := bitmapClear s.bitmap j }

def vfree (fuel addr : ℕ) (s : VmState) : Kernel VmState :=
  if addr = 0 then .ok s
  else if addr < vmallocBase ∨ vmallocMax ≤ addr then kpanic "vfree: pointer outside vmalloc zone"
  else do
    let idx := (addr - vmallocBase) / pageSize
    let r ← ended (findRegion s.pool idx fuel none (ptr s.regionList))
    match r.2 with
    | none => kpanic "vfree: pointer not allocated by vmalloc"
    | some cur => do
      let s := unlinkRegion r.1 cur s
      let npages := s.pool.mem (cur + 4)
      let s ← kfreeObject fuel cur s
      (List.range npages).foldlM (fun s i => unmapRegionPage s (idx + i)) s

/-- The body of the loop of `vbrk`. -/
def vbrkPage (bm : Bitmap) (_ : Unit) (i : ℕ) : Except ℕ Unit :=
  if !bitmapTest bm i then .error (vmallocBase + i * pageSize) else .ok ()

def vbrk (bm : Bitmap) : ℕ :=
  match (List.range vmallocPages).foldlM (vbrkPage bm) () with
  | .error addr => addr
  | .ok () => vmallocMax

/-- `vmalloc_stats_t` -/
structure VmallocStats where
  usedPages : ℕ
  totalPages : ℕ
  regionCount : ℕ

def countRegions (p : Pool) : ℕ → Option ℕ → Option ℕ
  | 0, _ => none
  | _ + 1, none => some 0
  | fuel + 1, some n => (countRegions p fuel (regionNext p n)).map (· + 1)

def vmallocQuery (fuel : ℕ) (s : VmState) : Kernel VmallocStats := do
  let regionCount ← ended (countRegions s.pool fuel (ptr s.regionList))
  .ok ⟨(List.range vmallocPages).countP (bitmapTest s.bitmap), vmallocPages, regionCount⟩

end HekaOS.Vmalloc
