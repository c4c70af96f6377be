import HekaOS.FirstFit
import HekaOS.MachineWord
import HekaOS.WordBitmap

/-!
# The frame allocator

`phys_page_frame.c`: one bit for each of the 16384 frames of 64 MiB, set while the frame is in
use. The first 4 MiB are reserved. Addresses are 32-bit words; a null pointer is 0.
-/

namespace HekaOS.PhysPageFrame
open MachineWord WordBitmap FirstFit

/-- `PHYS_FRAME_SIZE` -/
def physFrameSize : ℕ := 4096

/-- `PHYS_TOTAL_FRAMES` -/
def physTotalFrames : ℕ := 0x04000000 / physFrameSize

/-- `PHYS_REGION_START / PHYS_FRAME_SIZE` -/
def reservedFrames : ℕ := 0x00400000 / physFrameSize

/-- `BITMAP_SIZE` -/
def bitmapSize : ℕ := physTotalFrames / 32

/-- `phys_mem_init`, over whatever the memory behind the bitmap holds. -/
def physMemInit (old : Bitmap) : Bitmap :=
  let bm := fun i => if i < bitmapSize then BitVec.allOnes 32 else old i
  (List.range' reservedFrames (physTotalFrames - reservedFrames)).foldl bitmapClear bm

/-- The body of the inner loop of `phys_alloc_frame`. -/
def allocFrameBit (bm : Bitmap) (i : ℕ) (_ : Unit) (j : ℕ) : Except (ℕ × Bitmap) Unit :=
  let frame := i * 32 + j
  if physTotalFrames ≤ frame then .error (0, bm)
  else if !bitmapTest bm frame then .error (frame * physFrameSize, bitmapSet bm frame)
  else .ok ()

/-- The body of the outer loop: a full word is skipped. -/
def allocFrameWord (bm : Bitmap) (_ : Unit) (i : ℕ) : Except (ℕ × Bitmap) Unit :=
  if bm i = BitVec.allOnes 32 then .ok ()
  else (List.range 32).foldlM (allocFrameBit bm i) ()

def physAllocFrame (bm : Bitmap) : ℕ × Bitmap :=
  match (List.range bitmapSize).foldlM (allocFrameWord bm) () with
  | .error r => r
  | .ok () => (0, bm)

def physFreeFrame (addr : ℕ) (bm : Bitmap) : Bitmap :=
  if addr &&& (physFrameSize - 1) ≠ 0 then bm
  else
    let index := addr / physFrameSize
    if physTotalFrames ≤ index ∨ index < reservedFrames then bm
    else bitmapClear bm index

def physAllocContiguous (nFrames : ℕ) (bm : Bitmap) : ℕ × Bitmap :=
  if nFrames = 0 then (0, bm)
  else
    match (List.range physTotalFrames).foldlM (scanStep (fun i => !bitmapTest bm i) nFrames) (0, 0) with
    | .error start => (start * physFrameSize, (List.range' start nFrames).foldl bitmapSet bm)
    | .ok _ => (0, bm)

/-- The guard against a run beyond the last frame subtracts in 32 bits. -/
def physFreeContiguous (base nFrames : ℕ) (bm : Bitmap) : Bitmap :=
  if nFrames = 0 ∨ base &&& (physFrameSize - 1) ≠ 0 then bm
  else
    let start := base / physFrameSize
    if start < reservedFrames ∨ sub32 physTotalFrames start < nFrames then bm
    else (List.range' start (add32 start nFrames - start)).foldl bitmapClear bm

def physFreeCount (bm : Bitmap) : ℕ := (List.range physTotalFrames).countP fun i => !bitmapTest bm i

end HekaOS.PhysPageFrame
