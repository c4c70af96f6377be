import HekaOS.ByteMemory

/-!
# The two-level page walk

Translation of a 32-bit address by the memory management unit: the upper ten bits select an entry
of the directory at `CR3`, the next ten an entry of the page table it names. An entry is
present when its lowest bit is set, and names a frame with its upper twenty bits. The accessed and
dirty bits that the unit sets on its way are left out.
-/

namespace HekaOS.PageWalk
open MachineWord ByteMemory

/-- An entry that may be used for translation. -/
def Present (e : ℕ) : Prop := e % 2 = 1

instance (e : ℕ) : Decidable (Present e) := inferInstanceAs (Decidable (e % 2 = 1))

/-- The address of the frame an entry names. -/
def frameAddr (e : ℕ) : ℕ := e / 4096 * 4096

def pdIndex (va : ℕ) : ℕ := va / 2 ^ 22

def ptIndex (va : ℕ) : ℕ := va / 2 ^ 12 % 1024

/-- The physical address behind a virtual one, if both entries are present. -/
def walk (m : Memory) (cr3 va : ℕ) : Option ℕ :=
  let pde := load32 m (cr3 + 4 * pdIndex va)
  if Present pde then
    let pte := load32 m (frameAddr pde + 4 * ptIndex va)
    if Present pte then some (frameAddr pte + va % 4096) else none
  else none

/-- An access to the address does not fault. -/
def Mapped (m : Memory) (cr3 va : ℕ) : Prop := (walk m cr3 va).isSome = true

instance (m : Memory) (cr3 va : ℕ) : Decidable (Mapped m cr3 va) :=
  inferInstanceAs (Decidable ((walk m cr3 va).isSome = true))

end HekaOS.PageWalk
