import Mathlib.Tactic.Linarith
import HekaOS.KmemDynAlloc

/-!
# The block list behind the kernel heap

The heap in memory is a list of blocks laid end to end. `Linked` says that the headers
in memory spell out a block list, `Tiles` that its blocks cover an interval exactly.
All edits of the allocator replace a few neighbouring blocks by others that start at
the same address and cover the same interval; `Linked.replace` and `Tiles.replace`
carry the two facts over such an edit.
-/

namespace HekaOS.KmemDynAlloc
open MachineWord KernelMemory PointerChain

structure Block where
  addr : ℕ
  size : ℕ
  used : Bool
  deriving DecidableEq

namespace Block

/-- The pointer `kmem_alloc` hands out for a block. -/
def payload (b : Block) : ℕ := b.addr + headerSize

/-- The first address behind a block. -/
def stop (b : Block) : ℕ := b.addr + headerSize + b.size

end Block

/-- Address of the first block, or what follows an empty list. -/
def headOr (n : ℕ) : List Block → ℕ
  | [] => n
  | b :: _ => b.addr

/-- Address of the last block, or what precedes an empty list. -/
def lastOr (p : ℕ) : List Block → ℕ
  | [] => p
  | b :: bs => lastOr b.addr bs

@[simp] theorem headOr_append (n : ℕ) (xs ys : List Block) :
    headOr n (xs ++ ys) = headOr (headOr n ys) xs := by cases xs <;> rfl

@[simp] theorem lastOr_append (p : ℕ) (xs ys : List Block) :
    lastOr p (xs ++ ys) = lastOr (lastOr p xs) ys := by
  induction xs generalizing p with
  | nil => rfl
  | cons b xs ih => exact ih b.addr

/-- The four header words of a block. -/
structure HeaderAt (mem : ℕ → ℕ) (b : Block) (nxt prv : ℕ) : Prop where
  size : mem b.addr = b.size
  used : mem (b.addr + 4) = b.used.toNat
  next : mem (b.addr + 8) = nxt
  prev : mem (b.addr + 12) = prv

/-- Two memories agree on the header of a block. -/
def SameHeader (m m' : ℕ → ℕ) (b : Block) : Prop := ∀ k < headerSize, m' (b.addr + k) = m (b.addr + k)

/-- The headers spell out a block list that hangs between two given links. -/
def Linked (mem : ℕ → ℕ) : ℕ → List Block → ℕ → Prop
  | _, [], _ => True
  | p, b :: bs, n => HeaderAt mem b (headOr n bs) p ∧ Linked mem b.addr bs n

/-- The blocks cover an interval exactly, in order. -/
def Tiles : ℕ → List Block → ℕ → Prop
  | a, [], e => a = e
  | a, b :: bs, e => b.addr = a ∧ Tiles b.stop bs e

variable {m m' : ℕ → ℕ} {p n a e : ℕ} {b : Block} {pre mid mid' post bs : List Block}

theorem linked_append {xs ys : List Block} :
    Linked m p (xs ++ ys) n ↔ Linked m p xs (headOr n ys) ∧ Linked m (lastOr p xs) ys n := by
  induction xs generalizing p with
  | nil => simp [Linked, lastOr]
  | cons b xs ih => simp only [List.cons_append, Linked, lastOr, ih, headOr_append, and_assoc]

theorem HeaderAt.congr {nxt prv : ℕ} (h : HeaderAt m b nxt prv) (hs : SameHeader m m' b) :
    HeaderAt m' b nxt prv := by
  have h0 := hs 0 (by decide)
  have h4 := hs 4 (by decide)
  have h8 := hs 8 (by decide)
  have h12 := hs 12 (by decide)
  exact ⟨h0.trans h.size, h4.trans h.used, h8.trans h.next, h12.trans h.prev⟩

theorem Linked.congr (h : Linked m p bs n) (hs : ∀ b ∈ bs, SameHeader m m' b) :
    Linked m' p bs n := by
  induction bs generalizing p with
  | nil => trivial
  | cons b bs ih =>
    exact ⟨h.1.congr (hs b List.mem_cons_self), ih h.2 fun c hc => hs c (List.mem_cons_of_mem _ hc)⟩

/-- Hang a block list behind another block: only the back link of its head changes. -/
theorem Linked.relink {p' : ℕ} (h : Linked m p bs n)
    (hprev : ∀ b ∈ bs.head?, m' (b.addr + 12) = p' ∧ ∀ k < 12, m' (b.addr + k) = m (b.addr + k))
    (hs : ∀ b ∈ bs.tail, SameHeader m m' b) : Linked m' p' bs n := by
  cases bs with
  | nil => trivial
  | cons b bs =>
    obtain ⟨hp, hk⟩ := hprev b rfl
    have h0 := hk 0 (by decide)
    have h4 := hk 4 (by decide)
    have h8 := hk 8 (by decide)
    exact ⟨⟨h0.trans h.1.size, h4.trans h.1.used, h8.trans h.1.next, hp⟩, h.2.congr hs⟩

/-- Replace some neighbouring blocks by others that start at the same address. -/
theorem Linked.replace (h : Linked m p (pre ++ mid ++ post) n)
    (hmid : Linked m' (lastOr p pre) mid' (headOr n post))
    (hstart : headOr (headOr n post) mid' = headOr (headOr n post) mid)
    (hpre : ∀ b ∈ pre, SameHeader m m' b)
    (hprev : ∀ b ∈ post.head?, m' (b.addr + 12) = lastOr (lastOr p pre) mid' ∧
      ∀ k < 12, m' (b.addr + k) = m (b.addr + k))
    (hpost : ∀ b ∈ post.tail, SameHeader m m' b) : Linked m' p (pre ++ mid' ++ post) n := by
  rw [linked_append, linked_append] at h ⊢
  obtain ⟨⟨h₁, _⟩, h₃⟩ := h
  refine ⟨⟨?_, hmid⟩, ?_⟩
  · rw [hstart]
    exact h₁.congr hpre
  · rw [lastOr_append]
    exact h₃.relink hprev hpost

theorem tiles_append {xs ys : List Block} :
    Tiles a (xs ++ ys) e ↔ ∃ c, Tiles a xs c ∧ Tiles c ys e := by
  induction xs generalizing a with
  | nil => simp [Tiles]
  | cons b xs ih => simp only [List.cons_append, Tiles, ih, and_assoc, exists_and_left]

theorem Tiles.le (h : Tiles a bs e) : a ≤ e := by
  induction bs generalizing a with
  | nil => exact h.le
  | cons b bs ih =>
    have := ih h.2
    have := h.1
    simp only [Block.stop] at *
    omega

theorem Tiles.mem_bounds (h : Tiles a bs e) (hb : b ∈ bs) : a ≤ b.addr ∧ b.stop ≤ e := by
  induction bs generalizing a with
  | nil => simp at hb
  | cons c bs ih =>
    rcases List.mem_cons.mp hb with rfl | hb
    · exact ⟨h.1.ge, h.2.le⟩
    · have hc := ih h.2 hb
      have hstop : c.addr ≤ c.stop := by simp only [Block.stop]; omega
      exact ⟨h.1.ge.trans (hstop.trans hc.1), hc.2⟩

/-- Where a nonempty list starts decides where it ends. -/
theorem Tiles.unique {c d : ℕ} (h : Tiles a bs e) (h' : Tiles c bs d) (hne : bs ≠ []) :
    a = c ∧ e = d := by
  induction bs generalizing a c with
  | nil => exact absurd rfl hne
  | cons b bs ih =>
    refine ⟨h.1.symm.trans h'.1, ?_⟩
    cases bs with
    | nil => exact h.2.symm.trans h'.2
    | cons b' bs => exact (ih h.2 h'.2 (List.cons_ne_nil _ _)).2

/-- Blocks in front of a block end before it, and blocks behind it start after it. -/
theorem Tiles.around (h : Tiles a (pre ++ b :: post) e) :
    (∀ x ∈ pre, a ≤ x.addr ∧ x.stop ≤ b.addr) ∧ a ≤ b.addr ∧ b.stop ≤ e ∧
      ∀ y ∈ post, b.stop ≤ y.addr ∧ y.stop ≤ e := by
  obtain ⟨c, hpre, hb, hpost⟩ := tiles_append.mp h
  subst hb
  exact ⟨fun x hx => hpre.mem_bounds hx, hpre.le, hpost.le, fun y hy => hpost.mem_bounds hy⟩

/-- Different blocks of a tiling do not overlap. -/
theorem Tiles.disjoint (h : Tiles a bs e) {c : Block} (hb : b ∈ bs) (hc : c ∈ bs) (hbc : b ≠ c) :
    b.stop ≤ c.addr ∨ c.stop ≤ b.addr := by
  obtain ⟨pre, post, rfl⟩ := List.append_of_mem hb
  obtain ⟨hpre, _, _, hpost⟩ := h.around
  rcases List.mem_append.mp hc with hc | hc
  · exact .inr (hpre c hc).2
  · rcases List.mem_cons.mp hc with rfl | hc
    · exact absurd rfl hbc
    · exact .inl (hpost c hc).1

/-- The forward links of the headers form a chain of block addresses. -/
theorem Linked.chain (h : Linked m p bs 0) (hpos : ∀ b ∈ bs, 0 < b.addr) :
    Chain (fun b => ptr (m (b + 8))) (ptr (headOr 0 bs)) (bs.map Block.addr) := by
  induction bs generalizing p with
  | nil => rfl
  | cons b bs ih =>
    refine ⟨ptr_of_pos (hpos b List.mem_cons_self), ?_⟩
    simp only [h.1.next]
    exact ih h.2 fun c hc => hpos c (List.mem_cons_of_mem _ hc)

/-- The header of a block in the middle of the list. -/
theorem Linked.header (h : Linked m p (pre ++ b :: post) n) :
    HeaderAt m b (headOr n post) (lastOr p pre) := (linked_append.mp h).2.1

end HekaOS.KmemDynAlloc
