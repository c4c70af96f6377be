import Mathlib.Data.List.Chain
import HekaOS.KmemHeapEdits

/-!
# The coalesced form of a block list

`coalesce` joins all neighbours that are free. On a heap whose blocks are coalesced, `kmem_free`
marks its block free and coalesces: the two merges it makes are all there are to make.
-/

namespace HekaOS.KmemDynAlloc
open MachineWord KernelMemory PointerChain

variable {h h' : Heap} {a b c x : Block} {pre post bs xs ys : List Block}

/-- Put a block in front of a list, joined with the first block there if both are free. -/
def glue (b : Block) : List Block → List Block
  | [] => [b]
  | c :: cs => if b.used = false ∧ c.used = false then b.join c :: cs else b :: c :: cs

def coalesce : List Block → List Block
  | [] => []
  | b :: bs => glue b (coalesce bs)

theorem glue_used (hb : b.used = true) : glue b bs = b :: bs := by
  cases bs with
  | nil => rfl
  | cons c cs =>
    rw [glue, if_neg]
    rw [hb]
    exact fun hc => Bool.noConfusion hc.1

theorem glue_of_used (hc : c.used = true) : glue b (c :: bs) = b :: c :: bs := by
  rw [glue, if_neg]
  rw [hc]
  exact fun hfree => Bool.noConfusion hfree.2

theorem glue_of_free (hb : b.used = false) (hc : c.used = false) : glue b (c :: bs) = b.join c :: bs :=
  if_pos ⟨hb, hc⟩

theorem join_assoc (a b c : Block) : (a.join b).join c = a.join (b.join c) := by
  simp only [Block.join, Block.mk.injEq, true_and, and_true]
  omega

/-- Two free blocks in front of a list are glued in one step or in two. -/
theorem glue_join (hb : b.used = false) (hc : c.used = false) : glue (b.join c) bs = glue b (glue c bs) := by
  have hjoin : (b.join c).used = false := hb
  cases bs with
  | nil => exact (glue_of_free hb hc).symm
  | cons d ds =>
    cases hd : d.used with
    | true => rw [glue_of_used hd, glue_of_used hd, glue_of_free hb hc]
    | false =>
      have hcd : (c.join d).used = false := hc
      rw [glue_of_free hjoin hd, glue_of_free hc hd, glue_of_free hb hcd, join_assoc]

/-- The first block of a glued list stands where `b` stood, and is used if `b` is. -/
theorem glue_head (b : Block) (bs : List Block) :
    ∃ c cs, glue b bs = c :: cs ∧ c.addr = b.addr ∧ c.used = b.used ∧ cs ⊆ bs := by
  cases bs with
  | nil => exact ⟨b, [], rfl, rfl, rfl, List.nil_subset _⟩
  | cons d ds =>
    rw [glue]
    split
    · exact ⟨b.join d, ds, rfl, rfl, rfl, List.subset_cons_self d ds⟩
    · exact ⟨b, d :: ds, rfl, rfl, rfl, List.Subset.refl _⟩

theorem coalesced_glue (hc : Coalesced bs) : Coalesced (glue b bs) := by
  cases bs with
  | nil => exact List.isChain_singleton _
  | cons c cs =>
    cases hb : b.used with
    | true =>
      rw [glue_used hb]
      exact List.isChain_cons_cons.mpr ⟨.inl hb, hc⟩
    | false =>
      cases hcu : c.used with
      | true =>
        rw [glue_of_used hcu]
        exact List.isChain_cons_cons.mpr ⟨.inr hcu, hc⟩
      | false =>
        rw [glue_of_free hb hcu]
        cases cs with
        | nil => exact List.isChain_singleton _
        | cons d ds =>
          obtain ⟨hcd, hds⟩ := List.isChain_cons_cons.mp hc
          refine List.isChain_cons_cons.mpr ⟨.inr ?_, hds⟩
          simpa [hcu] using hcd

theorem coalesced_coalesce (bs : List Block) : Coalesced (coalesce bs) := by
  induction bs with
  | nil => exact List.isChain_nil
  | cons b bs ih => exact coalesced_glue ih

/-- A list that is coalesced is its own normal form. -/
theorem coalesce_of_coalesced (hc : Coalesced bs) : coalesce bs = bs := by
  induction bs with
  | nil => rfl
  | cons b bs ih =>
    rw [coalesce, ih hc.tail]
    cases bs with
    | nil => rfl
    | cons c cs =>
      rcases (List.isChain_cons_cons.mp hc).1 with hb | hcu
      · exact glue_used hb
      · exact glue_of_used hcu

theorem coalesce_append_coalesce (xs ys : List Block) : coalesce (xs ++ coalesce ys) = coalesce (xs ++ ys) := by
  induction xs with
  | nil => exact coalesce_of_coalesced (coalesced_coalesce ys)
  | cons b xs ih => exact congrArg (glue b) ih

/-- Coalescing leaves the used blocks alone. -/
theorem mem_glue_used (hx : x.used = true) : x ∈ glue b bs ↔ x = b ∨ x ∈ bs := by
  cases bs with
  | nil => simp [glue]
  | cons c cs =>
    rw [glue]
    split
    · rename_i hfree
      have hb : x ≠ b := fun he => by simp [he, hfree.1] at hx
      have hc : x ≠ c := fun he => by simp [he, hfree.2] at hx
      have hjoin : x ≠ b.join c := fun he => by simp [he, Block.join, hfree.1] at hx
      simp [hb, hc, hjoin]
    · exact List.mem_cons

theorem mem_coalesce_used (hx : x.used = true) : x ∈ coalesce bs ↔ x ∈ bs := by
  induction bs with
  | nil => exact Iff.rfl
  | cons b bs ih => rw [coalesce, mem_glue_used hx, ih, List.mem_cons]

/-- The links of a block in memory lead to its neighbours. -/
theorem Shape.next_eq (hs : Shape h (pre ++ b :: post)) : h.next b.addr = post.head?.map Block.addr := by
  obtain ⟨hb, -⟩ := hs.at
  rw [Heap.next, hb.next]
  cases post with
  | nil => exact ptr_zero
  | cons c post => exact ptr_of_pos (hs.addr_pos (by simp))

theorem Shape.prev_eq (hs : Shape h (pre ++ b :: post)) : h.prev b.addr = pre.getLast?.map Block.addr := by
  obtain ⟨hb, -⟩ := hs.at
  rw [Heap.prev, hb.prev]
  rcases List.eq_nil_or_concat' pre with rfl | ⟨pre, a, rfl⟩
  · exact ptr_zero
  · rw [lastOr_append, List.getLast?_concat]
    exact ptr_of_pos (hs.addr_pos (by simp))

/-- Freeing merges forward: the freed block absorbs a free block behind it. -/
theorem Shape.mergeNext (hs : Shape h (pre ++ b :: post)) (hfree : b.used = false) :
    Shape (mergeNext h b.addr) (pre ++ glue b post) := by
  rw [KmemDynAlloc.mergeNext, hs.next_eq]
  cases post with
  | nil => exact hs
  | cons c post =>
    have hs' : Shape h ((pre ++ [b]) ++ c :: post) := by simpa using hs
    obtain ⟨hc', -⟩ := hs'.at
    have hcused : h.used c.addr = c.used.toNat := hc'.used
    cases hu : c.used with
    | true =>
      rw [glue_of_used hu]
      simpa [hcused, hu] using hs
    | false =>
      rw [glue_of_free hfree hu]
      simpa [hcused, hu] using hs.joinBlocks

/-- Then backward: a free block in front absorbs the freed block. -/
theorem Shape.mergePrev (hs : Shape h (pre ++ a :: b :: post)) (hfree : b.used = false) :
    Shape (mergePrev h b.addr) (pre ++ glue a (b :: post)) := by
  have hs' : Shape h ((pre ++ [a]) ++ b :: post) := by simpa using hs
  obtain ⟨ha, -⟩ := hs.at
  have haused : h.used a.addr = a.used.toNat := ha.used
  rw [KmemDynAlloc.mergePrev, hs'.prev_eq, List.getLast?_concat]
  cases hu : a.used with
  | true =>
    rw [glue_used hu]
    simpa [haused, hu] using hs
  | false =>
    rw [glue_of_free hu hfree]
    simpa [haused, hu] using hs.joinBlocks

theorem Shape.mergePrev_first (hs : Shape h (b :: post)) : KmemDynAlloc.mergePrev h b.addr = h := by
  have hs' : Shape h ([] ++ b :: post) := hs
  rw [KmemDynAlloc.mergePrev, hs'.prev_eq]
  rfl

/-- The two merges of `kmem_free` coalesce the list. -/
theorem Shape.merge (hs : Shape h (pre ++ b :: post)) (hfree : b.used = false) (hpre : Coalesced pre)
    (hpost : Coalesced post) :
    Shape (KmemDynAlloc.mergePrev (KmemDynAlloc.mergeNext h b.addr) b.addr) (coalesce (pre ++ b :: post)) := by
  have hnext := hs.mergeNext hfree
  have hglue : coalesce (b :: post) = glue b post := by rw [coalesce, coalesce_of_coalesced hpost]
  obtain ⟨c, cs, hc, haddr, hcused, -⟩ := glue_head b post
  rw [← coalesce_append_coalesce, hglue, ← haddr]
  rw [hc, ← haddr] at hnext
  have hcoalesced : Coalesced (c :: cs) := hc ▸ coalesced_glue hpost
  have hcfree : c.used = false := hcused.trans hfree
  rw [hc]
  rcases List.eq_nil_or_concat' pre with rfl | ⟨pre, a, rfl⟩
  · rw [List.nil_append] at hnext ⊢
    rw [hnext.mergePrev_first, coalesce_of_coalesced hcoalesced]
    exact hnext
  · rw [List.append_assoc, List.singleton_append] at hnext ⊢
    have hmerged := hnext.mergePrev hcfree
    -- gluing the block in front leaves the seam before it as it was
    have hseam : Coalesced (pre ++ glue a (c :: cs)) := by
      obtain ⟨hpre', -, hlast⟩ := List.isChain_append.mp hpre
      obtain ⟨d, ds, hd, -, hdused, -⟩ := glue_head a (c :: cs)
      refine List.isChain_append.mpr ⟨hpre', coalesced_glue hcoalesced, fun x hx y hy => ?_⟩
      rw [hd] at hy
      obtain rfl : d = y := by simpa using hy
      rw [hdused]
      exact hlast x hx a rfl
    have hwhole : coalesce (pre ++ a :: c :: cs) = pre ++ glue a (c :: cs) := by
      rw [← coalesce_append_coalesce, coalesce, coalesce_of_coalesced hcoalesced, coalesce_of_coalesced hseam]
    rw [hwhole]
    exact hmerged

/-- `kmem_free` of a used block marks it free and coalesces. -/
theorem Shape.kmemFree (hs : Shape h (pre ++ b :: post)) (hc : Coalesced (pre ++ b :: post)) (hu : b.used = true) :
    ∃ h', KmemDynAlloc.kmemFree b.payload h = .ok h' ∧ h'.heapEnd = h.heapEnd ∧
      Shape h' (coalesce (pre ++ { b with used := false } :: post)) := by
  obtain ⟨hb, -⟩ := hs.at
  have hbpos : 0 < b.addr := hs.addr_pos (by simp)
  have hblk : b.payload - headerSize = b.addr := by simp [Block.payload]
  have hne : b.payload ≠ 0 := by
    simp only [Block.payload]
    omega
  have hused : h.used b.addr ≠ 0 := by
    have hflag : h.used b.addr = b.used.toNat := hb.used
    simp [hflag, hu]
  obtain ⟨hpre, hbpost, -⟩ := List.isChain_append.mp hc
  have hfreed : Shape (h.setUsed b.addr 0) (pre ++ { b with used := false } :: post) := hs.setUsed false
  refine ⟨_, ?_, ?_, hfreed.merge rfl hpre hbpost.tail⟩
  · rw [KmemDynAlloc.kmemFree, if_neg hne, hblk, if_neg hused]
  · rw [mergePrev_heapEnd, mergeNext_heapEnd]
    rfl

end HekaOS.KmemDynAlloc
