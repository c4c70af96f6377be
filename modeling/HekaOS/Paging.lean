import HekaOS.AddressMap
import HekaOS.KernelTriples
import HekaOS.PageWalk
import HekaOS.PhysPageFrame
import HekaOS.TaskModel

/-!
# Page tables

`paging.c` over a physical memory, `CR3` and the frame bitmap. Loads and stores through the
recursive window and through the two scratch pages go through the page walk like any other access;
one that fails is a page fault in Ring 0. The statically placed tables are accessed where they
are, since the kernel image is mapped to itself. The TLB is left out: the source flushes it
wherever it changes an entry of the current directory. So are the accessed and dirty bits, which the
CPU sets in the entries and no code reads.

The frame bitmap is kept beside the memory, and the stack that the kernel runs on is not modelled; a
user image that is copied from there is covered by the parameters `own` and `ownByte`.
-/

namespace HekaOS.Paging
open MachineWord KernelMemory KernelTriples ByteMemory PageWalk WordBitmap PhysPageFrame AddressMap
open Tasks (maxProc pageSize userCodeBase userStackTop)

/-- The frames of `page_directories` and `first_page_table`: both arrays are page-aligned and
lie apart from each other in the first 4 MiB. -/
structure Layout where
  dirFrame : ℕ
  fptFrame : ℕ
  /-- The physical addresses of `frame_bitmap` and of the stack that the kernel runs on. -/
  own : ℕ → Bool
  /-- What is found there when byte `b` of a user image is copied. -/
  ownByte : Bitmap → (b a : ℕ) → ℕ
  dir_low : dirFrame + maxProc ≤ reservedFrames
  fpt_low : fptFrame < reservedFrames
  apart : fptFrame < dirFrame ∨ dirFrame + maxProc ≤ fptFrame

namespace Layout

/-- The frame of `page_directories[pid]`. -/
def dir (L : Layout) (pid : ℕ) : ℕ := L.dirFrame + pid

/-- `page_directories[pid]` -/
def pageDirectory (L : Layout) (pid : ℕ) : ℕ := L.dir pid * pageSize

def firstPageTable (L : Layout) : ℕ := L.fptFrame * pageSize

end Layout

structure PagingState where
  mem : Memory
  cr3 : ℕ
  bitmap : Bitmap

namespace PagingState

def translate (s : PagingState) (va : ℕ) : Kernel ℕ :=
  match walk s.mem s.cr3 va with
  | some a => .ok a
  | none => kpanic "page fault"

def read (s : PagingState) (va : ℕ) : Kernel ℕ := do
  let a ← s.translate va
  .ok (load32 s.mem a)

def setWord (s : PagingState) (a v : ℕ) : PagingState := { s with mem := store32 s.mem a v }

def write (s : PagingState) (va v : ℕ) : Kernel PagingState := do
  let a ← s.translate va
  .ok (s.setWord a v)

def readByte (s : PagingState) (va : ℕ) : Kernel ℕ := do
  let a ← s.translate va
  .ok (s.mem a % 256)

/-- The byte at `va`, read as byte `b` of a user image. -/
def readImage (L : Layout) (s : PagingState) (b va : ℕ) : Kernel ℕ := do
  let a ← s.translate va
  .ok (if L.own a then L.ownByte s.bitmap b a % 256 else s.mem a % 256)

def writeByte (s : PagingState) (va v : ℕ) : Kernel PagingState := do
  let a ← s.translate va
  .ok { s with mem := store8 s.mem a v }

/-- `phys_free_frame` -/
def free (s : PagingState) (addr : ℕ) : PagingState := { s with bitmap := physFreeFrame addr s.bitmap }

end PagingState

/-- `PAGE_PRESENT` -/
def pagePresent : ℕ := 0x01

/-- `PAGE_RW` -/
def pageRw : ℕ := 0x02

/-- `PAGE_USER` -/
def pageUser : ℕ := 0x04

/-- `RECURSIVE_PT_BASE` -/
def recursivePtBase : ℕ := 0xFFC00000

/-- `RECURSIVE_PD_BASE` -/
def recursivePdBase : ℕ := 0xFFFFF000

/-- `KSTACK_PDE_INDEX` -/
def kstackPdeIndex : ℕ := pdIndex 0xEF000000

/-- Where the recursive window shows the page table of a directory entry. -/
def getPt (pdindex : ℕ) : ℕ := recursivePtBase + pageSize * pdindex

/-- `paging_init`, when the image has been loaded into `mem` and the frame allocator is set up. -/
def pagingInit (L : Layout) (mem : Memory) (bitmap : Bitmap) : PagingState :=
  let pd := L.pageDirectory 0
  let s : PagingState := ⟨mem, pd, bitmap⟩
  let s := (List.range 1024).foldl (fun s i => s.setWord (pd + 4 * i) pageRw) s
  let s := (List.range 1024).foldl (fun s i =>
    s.setWord (L.firstPageTable + 4 * i) (i * pageSize ||| (pagePresent ||| pageRw))) s
  let s := s.setWord pd (L.firstPageTable ||| (pagePresent ||| pageRw))
  s.setWord (pd + 4 * 1023) (pd ||| (pagePresent ||| pageRw))

def getPhysaddr (va : ℕ) (s : PagingState) : Kernel ℕ := do
  let pde ← s.read (recursivePdBase + 4 * pdIndex va)
  if pde &&& pagePresent = 0 then .ok 0
  else do
    let pte ← s.read (getPt (pdIndex va) + 4 * ptIndex va)
    if pte &&& pagePresent = 0 then .ok 0
    else .ok (add32 (clearLow 12 pte) (va &&& 0xFFF))

/-- Clear the page table that is mapped at an address. -/
def zeroTable (va : ℕ) (s : PagingState) : Kernel PagingState :=
  (List.range 1024).foldlM (fun s i => s.write (va + 4 * i) 0) s

/-- The part of `map_page` that enters a new page table and clears it. -/
def createPt (newPt pdindex flags : ℕ) (s : PagingState) : Kernel PagingState := do
  let s ← s.write (recursivePdBase + 4 * pdindex) (newPt ||| (pagePresent ||| pageRw ||| (flags &&& pageUser)))
  zeroTable (getPt pdindex) s

/-- The part of `map_page` behind the page table. -/
def setPte (phys va flags : ℕ) (s : PagingState) : Kernel PagingState := do
  let pte ← s.read (getPt (pdIndex va) + 4 * ptIndex va)
  let s ← if pte &&& pagePresent ≠ 0 then s.write (getPt (pdIndex va) + 4 * ptIndex va) 0 else .ok s
  s.write (getPt (pdIndex va) + 4 * ptIndex va) (phys ||| (flags &&& 0xFFF) ||| 0x01)

def mapPage (phys va flags : ℕ) (s : PagingState) : Kernel PagingState :=
  if phys &&& 0xFFF ≠ 0 ∨ va &&& 0xFFF ≠ 0 then .ok s
  else do
    let pde ← s.read (recursivePdBase + 4 * pdIndex va)
    if pde &&& pagePresent = 0 then
      let r := physAllocFrame s.bitmap
      if r.1 = 0 then .ok s
      else do
        let s ← createPt r.1 (pdIndex va) flags { s with bitmap := r.2 }
        setPte phys va flags s
    else setPte phys va flags s

def unmapPage (va : ℕ) (s : PagingState) : Kernel PagingState :=
  if va &&& 0xFFF ≠ 0 then .ok s
  else do
    let pde ← s.read (recursivePdBase + 4 * pdIndex va)
    if pde &&& pagePresent = 0 then .ok s
    else do
      let pte ← s.read (getPt (pdIndex va) + 4 * ptIndex va)
      if pte &&& pagePresent = 0 then .ok s
      else s.write (getPt (pdIndex va) + 4 * ptIndex va) 0

def allocPage (va flags : ℕ) (s : PagingState) : Kernel (ℕ × PagingState) :=
  let r := physAllocFrame s.bitmap
  if r.1 = 0 then .ok (0, s)
  else do
    let s ← mapPage r.1 va flags { s with bitmap := r.2 }
    let phys ← getPhysaddr va s
    if phys = 0 then .ok (0, s.free r.1) else .ok (va, s)

def freePage (va : ℕ) (s : PagingState) : Kernel PagingState := do
  let phys ← getPhysaddr va s
  if phys = 0 then .ok s
  else do
    let s ← unmapPage va s
    .ok (s.free phys)

def pagingProcInit (L : Layout) (pid : ℕ) (s : PagingState) : PagingState :=
  let pd := L.pageDirectory pid
  let pd0 := L.pageDirectory 0
  let s := (List.range 1024).foldl (fun s i => s.setWord (pd + 4 * i) pageRw) s
  let s := s.setWord pd (load32 s.mem pd0)
  let s := (List.range' 768 255).foldl (fun s i => s.setWord (pd + 4 * i) (load32 s.mem (pd0 + 4 * i))) s
  s.setWord (pd + 4 * 1023) (pd ||| (pagePresent ||| pageRw))

def pagingProcSwitch (L : Layout) (pid : ℕ) (s : PagingState) : PagingState :=
  { s with cr3 := L.pageDirectory pid }

/-- The byte loop of `paging_fork_copy`. -/
def copyPage (src dst : ℕ) (s : PagingState) : Kernel PagingState :=
  (List.range pageSize).foldlM (fun s b => do
    let v ← s.readByte (src + b)
    s.writeByte (dst + b) v) s

/-- One page of `paging_fork_copy`. -/
def forkPte (pdi : ℕ) (s : PagingState) (pti : ℕ) : Kernel (Bool × PagingState) := do
  let parentPte ← s.read (getPt pdi + 4 * pti)
  if parentPte &&& pagePresent = 0 then .ok (true, s)
  else
    let r := physAllocFrame s.bitmap
    if r.1 = 0 then do
      let s ← unmapPage forkScratchPtVa s
      .ok (false, s)
    else do
      let s ← mapPage r.1 forkScratchDataVa (pagePresent ||| pageRw) { s with bitmap := r.2 }
      let s ← copyPage ((pdi <<< 22) ||| (pti <<< 12)) forkScratchDataVa s
      let s ← s.write (forkScratchPtVa + 4 * pti) (r.1 ||| (parentPte &&& 0xFFF))
      .ok (true, s)

/-- One page table of `paging_fork_copy`. -/
def forkPde (L : Layout) (childPid : ℕ) (s : PagingState) (pdi : ℕ) : Kernel (Bool × PagingState) := do
  let parentPde ← s.read (recursivePdBase + 4 * pdi)
  if parentPde &&& pagePresent = 0 then .ok (true, s)
  else
    let r := physAllocFrame s.bitmap
    if r.1 = 0 then .ok (false, s)
    else do
      let s ← mapPage r.1 forkScratchPtVa (pagePresent ||| pageRw) { s with bitmap := r.2 }
      let s ← zeroTable forkScratchPtVa s
      let s := s.setWord (L.pageDirectory childPid + 4 * pdi) (r.1 ||| (parentPde &&& 0xFFF))
      tryEach (forkPte pdi) (List.range 1024) s

/-- `paging_fork_copy`; the answer `false` is `-1`. -/
def pagingForkCopy (L : Layout) (childPid : ℕ) (s : PagingState) : Kernel (Bool × PagingState) := do
  let kstackPde ← s.read (recursivePdBase + 4 * kstackPdeIndex)
  let s := s.setWord (L.pageDirectory childPid + 4 * kstackPdeIndex) kstackPde
  let r ← tryEach (forkPde L childPid) (List.range' 1 767) s
  if !r.1 then .ok r
  else do
    let s ← unmapPage forkScratchPtVa r.2
    let s ← unmapPage forkScratchDataVa s
    .ok (true, s)

/-- The part of `load_user_page` that finds or creates the page table. -/
def userPt (L : Layout) (pid pdi : ℕ) (s : PagingState) : Kernel (Option ℕ × PagingState) :=
  let pde := load32 s.mem (L.pageDirectory pid + 4 * pdi)
  if pde &&& pagePresent = 0 then
    let r := physAllocFrame s.bitmap
    if r.1 = 0 then .ok (none, s)
    else do
      let s ← mapPage r.1 forkScratchPtVa (pagePresent ||| pageRw) { s with bitmap := r.2 }
      let s ← zeroTable forkScratchPtVa s
      let s ← unmapPage forkScratchPtVa s
      .ok (some r.1, s.setWord (L.pageDirectory pid + 4 * pdi) (r.1 ||| (pagePresent ||| pageRw ||| pageUser)))
  else .ok (some (clearLow 12 pde), s)

/-- The bytes of a user page: those at `src`, and zeros behind them. -/
def fillPage (L : Layout) (src copySize : ℕ) (s : PagingState) : Kernel PagingState :=
  if src ≠ 0 ∧ 0 < copySize then do
    let s ← (List.range copySize).foldlM (fun s b => do
      let v ← s.readImage L b (add32 src b)
      s.writeByte (forkScratchDataVa + b) v) s
    (List.range' copySize (pageSize - copySize)).foldlM (fun s b => s.writeByte (forkScratchDataVa + b) 0) s
  else (List.range pageSize).foldlM (fun s b => s.writeByte (forkScratchDataVa + b) 0) s

def loadUserPage (L : Layout) (pid va src copySize : ℕ) (s : PagingState) : Kernel (Bool × PagingState) := do
  let r ← userPt L pid (pdIndex va) s
  match r.1 with
  | none => .ok (false, r.2)
  | some ptPhys =>
    let f := physAllocFrame r.2.bitmap
    if f.1 = 0 then .ok (false, r.2)
    else do
      let s ← mapPage ptPhys forkScratchPtVa (pagePresent ||| pageRw) { r.2 with bitmap := f.2 }
      let s ← s.write (forkScratchPtVa + 4 * ptIndex va) (f.1 ||| (pagePresent ||| pageRw ||| pageUser))
      let s ← unmapPage forkScratchPtVa s
      let s ← mapPage f.1 forkScratchDataVa (pagePresent ||| pageRw) s
      let s ← fillPage L src copySize s
      let s ← unmapPage forkScratchDataVa s
      .ok (true, s)

def pagingLoadUserImage (L : Layout) (pid src size : ℕ) (s : PagingState) : Kernel (Bool × PagingState) :=
  if size = 0 ∨ pageSize < size then .ok (false, s)
  else do
    let r ← loadUserPage L pid userCodeBase src size s
    if !r.1 then .ok (false, r.2)
    else do
      let r ← loadUserPage L pid (userStackTop - pageSize) 0 0 r.2
      if !r.1 then .ok (false, r.2) else .ok (true, r.2)

/-- One entry of a dead page table in `paging_proc_teardown`. -/
def freePte (s : PagingState) (pti : ℕ) : Kernel PagingState := do
  let pte ← s.read (forkScratchPtVa + 4 * pti)
  if pte &&& pagePresent = 0 then .ok s else .ok (s.free (clearLow 12 pte))

/-- One page table of `paging_proc_teardown`. -/
def teardownPde (L : Layout) (pid : ℕ) (s : PagingState) (pdi : ℕ) : Kernel PagingState :=
  let pde := load32 s.mem (L.pageDirectory pid + 4 * pdi)
  if pde &&& pagePresent = 0 then .ok s
  else do
    let s ← mapPage (clearLow 12 pde) forkScratchPtVa (pagePresent ||| pageRw) s
    let s ← (List.range 1024).foldlM freePte s
    let s ← unmapPage forkScratchPtVa s
    .ok ((s.free (clearLow 12 pde)).setWord (L.pageDirectory pid + 4 * pdi) pageRw)

def pagingProcTeardown (L : Layout) (pid : ℕ) (s : PagingState) : Kernel PagingState :=
  (List.range' 1 767).foldlM (teardownPde L pid) s

end HekaOS.Paging
