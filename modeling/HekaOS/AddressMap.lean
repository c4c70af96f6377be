import Mathlib.Order.Interval.Set.Basic

/-!
# Zones of the kernel half

The addresses `vmalloc.h` and `paging.c` set aside above the chunk pool and the kernel stacks.
-/

namespace HekaOS.AddressMap

/-- `VMALLOC_BASE` -/
def vmallocBase : ℕ := 0xF0000000

/-- `VMALLOC_MAX` -/
def vmallocMax : ℕ := 0xFFBFFFFF

/-- `FORK_SCRATCH_PT_VA` -/
def forkScratchPtVa : ℕ := 0xEF200000

/-- `FORK_SCRATCH_DATA_VA` -/
def forkScratchDataVa : ℕ := 0xEF201000

end HekaOS.AddressMap
