import HekaOS.FrameExclusivity
import HekaOS.VmallocRegions

/-!
# `vmalloc` over whole histories

The bitmap, the list of regions and the page tables agree after every history of `vmalloc` and
`vfree`. The list lives in the chunk pool beside the objects of others (`ListShape`); the bitmap and
the page tables show the pages of the regions on it (`PageShape`).
-/

namespace HekaOS.Vmalloc
open MachineWord KernelMemory KernelTriples WordBitmap FirstFit AddressMap PointerChain PageWalk
open Paging (PagingState Layout PagingReachable)
open Kmalloc (Pool PoolShape PoolReachable)
open Tasks (pageSize)

variable {L : Layout} {s t : VmState} {p q : Pool} {pg pg' : PagingState} {bm : Bitmap} {others live : Finset ℕ}
  {rs l m : List Region} {r x : Region} {a c d i j n v head head' start fuel : ℕ} {lists : ℕ → List ℕ}

/-- The objects of the chunk pool that serve as nodes. -/
def nodes (rs : List Region) : Finset ℕ := (rs.map Region.node).toFinset

/-- The nodes are objects of the pool, apart from those of others. -/
structure ListShape (p : Pool) (head : ℕ) (others : Finset ℕ) (rs : List Region) : Prop where
  listed : Listed p head rs
  pool : ∃ lists, PoolShape p (others ∪ nodes rs) lists
  fresh : ∀ r ∈ rs, r.node ∉ others
  size : ∀ r ∈ rs, regionSize ≤ Kmalloc.ksize p r.node

theorem mem_nodes (hr : r ∈ rs) : r.node ∈ others ∪ nodes rs :=
  Finset.mem_union_right _ (List.mem_toFinset.mpr (List.mem_map_of_mem hr))

theorem not_mem_nodes (hc : c ∉ others ∪ nodes rs) (hr : r ∈ rs) : r.node ≠ c := by
  rintro rfl
  exact hc (mem_nodes hr)

/-- A region besides the one in the middle. -/
theorem mem_of_mem (hx : x ∈ l ++ m) : x ∈ l ++ r :: m := by
  rcases List.mem_append.mp hx with hx | hx
  · exact List.mem_append_left _ hx
  · exact List.mem_append_right _ (List.mem_cons_of_mem r hx)

namespace ListShape

/-- The pool gains or loses an object of others. -/
theorem exchange {others' : Finset ℕ} (h : ListShape p head others rs)
    (hpool : ∃ lists, PoolShape q (others' ∪ nodes rs) lists) (hfresh : ∀ r ∈ rs, r.node ∉ others')
    (hobj : ∀ b ∈ p.mapped, q.hdrObjSize b = p.hdrObjSize b)
    (hsame : ∀ r ∈ rs, ∀ a, r.node ≤ a → a < r.node + Kmalloc.ksize p r.node → q.mem a = p.mem a) :
    ListShape q head others' rs := by
  obtain ⟨lists, hs⟩ := h.pool
  refine ⟨h.listed.congr fun r hr k hk => ?_, hpool, hfresh, fun r hr => ?_⟩
  · have hsize := h.size r hr
    exact hsame r hr _ (Nat.le_add_right _ _) (by omega)
  · unfold Kmalloc.ksize
    rw [hobj _ (hs.mem_live (mem_nodes hr)).1]
    exact h.size r hr

/-- `kmalloc` for a new node. -/
theorem kmalloc (h : ListShape p head others rs) (ha : Kmalloc.Allocated regionSize p q (others ∪ nodes rs) c) :
    ListShape q head (insert c others) rs ∧ regionSize ≤ Kmalloc.ksize q c ∧ 0 < c := by
  obtain ⟨lists, hs⟩ := ha.shape
  have hc : c ∈ insert c (others ∪ nodes rs) := Finset.mem_insert_self _ _
  refine ⟨?_, ?_, hs.live_pos hc⟩
  · rw [← Finset.insert_union] at hs
    refine h.exchange ⟨lists, hs⟩ (fun r hr hmem => ?_) ha.kept fun r hr => ha.contents _ (mem_nodes hr)
    rcases Finset.mem_insert.mp hmem with hrc | hmem
    · exact not_mem_nodes ha.fresh hr hrc
    · exact h.fresh r hr hmem
  · rw [hs.ksize_eq hc]
    exact ha.fits.1.1

/-- `kfree` of an object that is no node. -/
theorem kfree (h : ListShape p head (insert c others) rs) (hc : c ∉ others)
    (hf : Kmalloc.Freed p q (insert c others ∪ nodes rs) c) : ListShape q head others rs := by
  have hnode : ∀ r ∈ rs, r.node ≠ c := fun r hr he => h.fresh r hr (he ▸ Finset.mem_insert_self _ _)
  have herase : (insert c others ∪ nodes rs).erase c = others ∪ nodes rs := by
    rw [Finset.insert_union]
    refine Finset.erase_insert fun hmem => ?_
    rcases Finset.mem_union.mp hmem with hmem | hmem
    · exact hc hmem
    · obtain ⟨r, hr, hrc⟩ := List.mem_map.mp (List.mem_toFinset.mp hmem)
      exact hnode r hr hrc
  have hpool := hf.shape
  rw [herase] at hpool
  refine h.exchange hpool (fun r hr hmem => h.fresh r hr (Finset.mem_insert_of_mem hmem)) hf.kept fun r hr => ?_
  exact hf.contents _ (mem_nodes hr) (hnode r hr)

/-- A store inside an object that is no node. -/
theorem store_other (h : ListShape p head others rs) (hc : c ∈ others) (ha : c ≤ a) (ha' : a < c + Kmalloc.ksize p c) :
    ListShape (p.store a v) head others rs := by
  obtain ⟨lists, hs⟩ := h.pool
  have hlive : c ∈ others ∪ nodes rs := Finset.mem_union_left _ hc
  refine h.exchange ⟨lists, hs.write hlive ha ha'⟩ h.fresh (fun b hb => ?_) fun r hr b hb hb' => ?_
  · exact hs.store_header hlive ha ha' hb (by decide : 0 < Kmalloc.cpoolHdrSize)
  · have hne : c ≠ r.node := fun he => h.fresh r hr (he ▸ hc)
    have hdisjoint := hs.live_disjoint hlive (mem_nodes hr) hne
    exact Function.update_of_ne (by omega) _ _

theorem ksize_store (h : ListShape p head others rs) (hc : c ∈ others) (ha : c ≤ a)
    (ha' : a < c + Kmalloc.ksize p c) : Kmalloc.ksize (p.store a v) c = Kmalloc.ksize p c := by
  obtain ⟨lists, hs⟩ := h.pool
  have hlive : c ∈ others ∪ nodes rs := Finset.mem_union_left _ hc
  exact hs.store_ksize hlive ha ha' hlive

theorem live_eq (others : Finset ℕ) (l m : List Region) (r : Region) :
    others ∪ nodes (l ++ r :: m) = insert r.node others ∪ nodes (l ++ m) := by
  ext b
  simp only [nodes, List.map_append, List.map_cons, List.toFinset_append, List.toFinset_cons, Finset.mem_union,
    Finset.mem_insert]
  tauto

/-- A node is filled in and put in front of the list. -/
theorem enter (h : ListShape p head (insert c others) rs) (hc : c ∉ others) (hpos : 0 < c)
    (hsize : regionSize ≤ Kmalloc.ksize p c) :
    ListShape (((p.store c start).store (c + 4) n).store (c + 8) head) c others (⟨c, start, n⟩ :: rs) := by
  have hin : c ∈ insert c others := Finset.mem_insert_self _ _
  simp only [regionSize] at hsize
  have h₁ := h.store_other (v := start) hin (le_refl c) (by omega)
  have hsize₁ := h.ksize_store (v := start) hin (le_refl c) (by omega)
  have h₂ := h₁.store_other (a := c + 4) (v := n) hin (by omega) (by omega)
  have hsize₂ := h₁.ksize_store (a := c + 4) (v := n) hin (by omega) (by omega)
  have h₃ := h₂.store_other (a := c + 8) (v := head) hin (by omega) (by omega)
  have hsize₃ := h₂.ksize_store (a := c + 8) (v := head) hin (by omega) (by omega)
  obtain ⟨lists, hs⟩ := h₃.pool
  have hstart : (((p.store c start).store (c + 4) n).store (c + 8) head).mem c = start := by
    simp [Pool.store]
  have hnpages : (((p.store c start).store (c + 4) n).store (c + 8) head).mem (c + 4) = n := by
    simp [Pool.store]
  have hnext : (((p.store c start).store (c + 4) n).store (c + 8) head).mem (c + 8) = head := by
    simp [Pool.store]
  refine ⟨⟨⟨ptr_of_pos hpos, ?_⟩, ?_, ?_⟩, ⟨lists, ?_⟩, ?_, ?_⟩
  · unfold regionNext
    rw [hnext]
    exact h₃.listed.chain
  · intro r hr
    rcases List.mem_cons.mp hr with rfl | hr
    · exact hstart
    · exact h₃.listed.start r hr
  · intro r hr
    rcases List.mem_cons.mp hr with rfl | hr
    · exact hnpages
    · exact h₃.listed.npages r hr
  · have hlive := live_eq others [] rs ⟨c, start, n⟩
    rw [List.nil_append, List.nil_append] at hlive
    rw [hlive]
    exact hs
  · intro r hr
    rcases List.mem_cons.mp hr with rfl | hr
    · exact hc
    · exact fun hmem => h.fresh r hr (Finset.mem_insert_of_mem hmem)
  · intro r hr
    rcases List.mem_cons.mp hr with rfl | hr
    · rw [hsize₃, hsize₂, hsize₁]
      exact hsize
    · exact h₃.size r hr

theorem node_ne (h : ListShape p head others (l ++ r :: m)) (hx : x ∈ l ++ m) : x.node ≠ r.node := by
  have hnodup := h.listed.chain.nodup
  rw [List.map_append, List.map_cons, List.nodup_append, List.nodup_cons] at hnodup
  rcases List.mem_append.mp hx with hx | hx
  · exact hnodup.2.2 _ (List.mem_map_of_mem hx) _ List.mem_cons_self
  · intro he
    exact hnodup.2.1.1 (he ▸ List.mem_map_of_mem hx)

/-- The link of a node leads behind it. -/
theorem next_eq (h : ListShape p head others (l ++ r :: m)) :
    ptr (p.mem (r.node + 8)) = (m.map Region.node).head? := by
  have hchain := h.listed.chain
  rw [List.map_append, List.map_cons] at hchain
  exact (Chain.suffix hchain).2.head?_eq

/-- A list whose links lead around one node. -/
theorem detach (h : ListShape p head others (l ++ r :: m))
    (hchain : Chain (regionNext q) (ptr head') ((l ++ m).map Region.node))
    (hpool : ∃ lists, PoolShape q (others ∪ nodes (l ++ r :: m)) lists)
    (hobj : ∀ b ∈ p.mapped, q.hdrObjSize b = p.hdrObjSize b)
    (hsame : ∀ x ∈ l ++ m, q.mem x.node = p.mem x.node ∧ q.mem (x.node + 4) = p.mem (x.node + 4)) :
    ListShape q head' (insert r.node others) (l ++ m) := by
  obtain ⟨lists, hs⟩ := h.pool
  rw [live_eq] at hpool
  have hmem : ∀ x ∈ l ++ m, x ∈ l ++ r :: m := fun x hx => mem_of_mem hx
  refine ⟨⟨hchain, fun x hx => ?_, fun x hx => ?_⟩, hpool, fun x hx => ?_, fun x hx => ?_⟩
  · rw [(hsame x hx).1]
    exact h.listed.start x (hmem x hx)
  · rw [(hsame x hx).2]
    exact h.listed.npages x (hmem x hx)
  · intro hc
    rcases Finset.mem_insert.mp hc with he | hc
    · exact h.node_ne hx he
    · exact h.fresh x (hmem x hx) hc
  · unfold Kmalloc.ksize
    rw [hobj _ (hs.mem_live (mem_nodes (hmem x hx))).1]
    exact h.size x (hmem x hx)

/-- The node is first: the head moves on. -/
theorem unlink_first (h : ListShape p head others (r :: m)) :
    ListShape p (p.mem (r.node + 8)) (insert r.node others) m := by
  have h' : ListShape p head others ([] ++ r :: m) := h
  refine h'.detach ?_ h.pool (fun _ _ => rfl) fun _ _ => ⟨rfl, rfl⟩
  exact h.listed.chain.2

/-- The node is behind another one, whose link changes. -/
theorem unlink_behind (h : ListShape p head others (l ++ r :: m)) (hx : l.getLast? = some x) :
    ListShape (p.store (x.node + 8) (p.mem (r.node + 8))) head (insert r.node others) (l ++ m) := by
  obtain ⟨lists, hs⟩ := h.pool
  have hxl : x ∈ l := List.mem_of_getLast? hx
  have hxmem : x ∈ l ++ r :: m := List.mem_append_left _ hxl
  have hsize := h.size x hxmem
  have hxlive : x.node ∈ others ∪ nodes (l ++ r :: m) := mem_nodes hxmem
  simp only [regionSize] at hsize
  have hlow : x.node ≤ x.node + 8 := Nat.le_add_right _ _
  have hhigh : x.node + 8 < x.node + Kmalloc.ksize p x.node := by omega
  -- no other field of a node is stored to
  have hcell : ∀ y ∈ l ++ m, ∀ k < regionSize, ¬(y.node = x.node ∧ k = 8) →
      (p.store (x.node + 8) (p.mem (r.node + 8))).mem (y.node + k) = p.mem (y.node + k) := by
    intro y hy k hk hne
    have hymem : y ∈ l ++ r :: m := mem_of_mem hy
    have hysize := h.size y hymem
    simp only [regionSize] at hysize hk
    refine Function.update_of_ne (fun he => ?_) _ _
    by_cases hsame : y.node = x.node
    · exact hne ⟨hsame, by omega⟩
    · have hdisjoint := hs.live_disjoint hxlive (mem_nodes hymem) (Ne.symm hsame)
      omega
  refine h.detach ?_ ⟨lists, hs.write hxlive hlow hhigh⟩ (fun b hb => ?_) fun y hy => ⟨?_, ?_⟩
  · have hchain := h.listed.chain
    rw [List.map_append, List.map_cons] at hchain
    rw [List.map_append]
    refine hchain.remove ?_ fun b hb => ?_
    · rw [if_neg]
      intro hnil
      rw [List.map_eq_nil_iff.mp hnil] at hxl
      exact nomatch hxl
    · rw [← List.map_append] at hb
      obtain ⟨y, hy, rfl⟩ := List.mem_map.mp hb
      rw [List.getLast?_map, hx, Option.map_some]
      by_cases hyx : y.node = x.node
      · rw [hyx, if_pos rfl, ← h.next_eq]
        unfold regionNext
        simp [Pool.store]
      · rw [if_neg fun he => hyx (Option.some.inj he).symm]
        exact congrArg ptr (hcell y hy 8 (by decide) fun hc => hyx hc.1)
  · exact hs.store_header hxlive hlow hhigh hb (by decide : 0 < Kmalloc.cpoolHdrSize)
  · exact hcell y hy 0 (by decide) fun hc => absurd hc.2 (by decide)
  · exact hcell y hy 4 (by decide) fun hc => absurd hc.2 (by decide)

end ListShape

/-- The bitmap and the page tables show the pages of the regions. -/
structure PageShape (L : Layout) (bm : Bitmap) (pg : PagingState) (rs : List Region) : Prop where
  pos : ∀ r ∈ rs, 0 < r.npages
  bound : ∀ r ∈ rs, r.start + r.npages ≤ vmallocPages
  apart : rs.Pairwise Region.Apart
  bits : ∀ i < vmallocPages, bitmapTest bm i = true ↔ ∃ r ∈ rs, r.Has i
  mapped : ∀ i < vmallocPages, PageMapped pg i ↔ bitmapTest bm i = true
  paging : Paging.InOrder L pg

namespace PageShape

theorem zoneKept (h : PageShape L bm pg rs) (hkept : ZoneKept L pg pg') : PageShape L bm pg' rs :=
  ⟨h.pos, h.bound, h.apart, h.bits, fun i hi => (hkept.zone i hi).trans (h.mapped i hi), hkept.inOrder⟩

/-- A run of clear bits becomes a region. -/
theorem insert (h : PageShape L bm pg rs) (hpos : 0 < r.npages) (hbound : r.start + r.npages ≤ vmallocPages)
    (hrun : IsRun (fun i => !bitmapTest bm i) r.npages r.start) (hin : Paging.InOrder L pg')
    (hpg : ∀ i < vmallocPages, PageMapped pg' i ↔ PageMapped pg i ∨ i ∈ List.range' r.start r.npages) :
    PageShape L ((List.range' r.start r.npages).foldl bitmapSet bm) pg' (r :: rs) := by
  have hhas : ∀ i, i ∈ List.range' r.start r.npages ↔ r.Has i := fun i => List.mem_range'_1
  refine ⟨?_, ?_, ?_, fun i hi => ?_, fun i hi => ?_, hin⟩
  · intro x hx
    rcases List.mem_cons.mp hx with rfl | hx
    · exact hpos
    · exact h.pos x hx
  · intro x hx
    rcases List.mem_cons.mp hx with rfl | hx
    · exact hbound
    · exact h.bound x hx
  · refine List.pairwise_cons.mpr ⟨fun x hx => ?_, h.apart⟩
    -- a region that overlaps would have a bit set within the run
    by_contra hover
    unfold Region.Apart at hover
    have hxpos := h.pos x hx
    have hclear := hrun (max r.start x.start) (by omega) (by omega)
    have hset := (h.bits (max r.start x.start) (by omega)).mpr ⟨x, hx, by omega, by omega⟩
    simp [hset] at hclear
  · rw [bitmapTest_foldl_set, h.bits i hi, hhas]
    simp only [List.mem_cons, exists_eq_or_imp]
    exact or_comm
  · rw [hpg i hi, h.mapped i hi, bitmapTest_foldl_set]

theorem not_has (h : PageShape L bm pg (l ++ r :: m)) (hx : x ∈ l ++ m) (hi : x.Has i) : ¬r.Has i := by
  have hapart : x.Apart r ∨ r.Apart x := by
    have hpair := h.apart
    rw [List.pairwise_append] at hpair
    rcases List.mem_append.mp hx with hx | hx
    · exact .inl (hpair.2.2 x hx r List.mem_cons_self)
    · exact .inr ((List.pairwise_cons.mp hpair.2.1).1 x hx)
  unfold Region.Apart at hapart
  unfold Region.Has at hi ⊢
  omega

/-- The pages of a region are given up. -/
theorem erase (h : PageShape L bm pg (l ++ r :: m)) (hin : Paging.InOrder L pg')
    (hpg : ∀ i < vmallocPages, PageMapped pg' i ↔ PageMapped pg i ∧ i ∉ List.range' r.start r.npages) :
    PageShape L ((List.range' r.start r.npages).foldl bitmapClear bm) pg' (l ++ m) := by
  have hhas : ∀ i, i ∈ List.range' r.start r.npages ↔ r.Has i := fun i => List.mem_range'_1
  refine ⟨fun x hx => h.pos x (mem_of_mem hx), fun x hx => h.bound x (mem_of_mem hx), ?_, fun i hi => ?_,
    fun i hi => ?_, hin⟩
  · exact h.apart.sublist (List.Sublist.append_left (List.sublist_cons_self r m) l)
  · rw [bitmapTest_foldl_clear, h.bits i hi, hhas]
    constructor
    · rintro ⟨⟨x, hx, hxi⟩, hno⟩
      refine ⟨x, ?_, hxi⟩
      rcases List.mem_append.mp hx with hx | hx
      · exact List.mem_append_left _ hx
      · rcases List.mem_cons.mp hx with rfl | hx
        · exact absurd hxi hno
        · exact List.mem_append_right _ hx
    · rintro ⟨x, hx, hxi⟩
      exact ⟨⟨x, mem_of_mem hx, hxi⟩, h.not_has hx hxi⟩
  · rw [hpg i hi, h.mapped i hi, bitmapTest_foldl_clear]

/-- Regions are told apart by their start. -/
theorem start_ne (h : PageShape L bm pg (l ++ r :: m)) (hx : x ∈ l ++ m) : x.start ≠ r.start := by
  intro he
  have hxpos := h.pos x (mem_of_mem hx)
  have hrpos := h.pos r (List.mem_append_right _ List.mem_cons_self)
  exact h.not_has hx (i := x.start) ⟨le_refl _, by omega⟩ ⟨by omega, by omega⟩

end PageShape

/-- The three views of the regions agree. -/
structure VmShape (L : Layout) (s : VmState) (others : Finset ℕ) (rs : List Region) : Prop where
  list : ListShape s.pool s.regionList others rs
  pages : PageShape L s.bitmap s.paging rs

/-- The address of a region. -/
def Region.addr (r : Region) : ℕ := vmallocBase + r.start * pageSize

/-- What `vmalloc` has done when it returns a region: a run of free pages is its own now, and its
node is in front of the list. -/
structure Reserved (L : Layout) (s t : VmState) (others : Finset ℕ) (rs : List Region) (r : Region) : Prop where
  shape : VmShape L t others (r :: rs)
  run : IsRun (fun i => !bitmapTest s.bitmap i) r.npages r.start
  bitmap : t.bitmap = (List.range' r.start r.npages).foldl bitmapSet s.bitmap
  next : t.pool.mem (r.node + 8) = s.regionList

/-- A null result leaves the bitmap and the list as they were. -/
structure Refused (L : Layout) (s t : VmState) (others : Finset ℕ) (rs : List Region) : Prop where
  shape : VmShape L t others rs
  bitmap : t.bitmap = s.bitmap
  regionList : t.regionList = s.regionList

/-- What `vfree` has done when it returns. -/
structure Released (L : Layout) (s t : VmState) (others : Finset ℕ) (l m : List Region) (r : Region) : Prop where
  shape : VmShape L t others (l ++ m)
  bitmap : t.bitmap = (List.range' r.start r.npages).foldl bitmapClear s.bitmap
  regionList : t.regionList = if l = [] then s.pool.mem (r.node + 8) else s.regionList

namespace VmShape

theorem vmalloc (h : VmShape L s others rs) (hok : vmalloc fuel n s = .ok (a, t)) :
    a = 0 ∧ Refused L s t others rs ∨
      ∃ r, r.npages = n ∧ a = r.addr ∧ a ≠ 0 ∧ Reserved L s t others rs r := by
  obtain ⟨lists, hs⟩ := h.list.pool
  unfold Vmalloc.vmalloc at hok
  by_cases hzero : n = 0
  · rw [if_pos hzero] at hok
    obtain ⟨rfl, rfl⟩ := Prod.mk.inj (Except.ok.inj hok)
    exact .inl ⟨rfl, h, rfl, rfl⟩
  rw [if_neg hzero] at hok
  obtain ⟨⟨c, s₁⟩, hnode, hok⟩ := bind_eq_ok.mp hok
  obtain ⟨q, pg, rfl, ha, hkept⟩ := kmallocObject_ok hs h.pages.paging (by decide) (by decide) hnode
  obtain ⟨hlist, hsize, hpos⟩ := h.list.kmalloc ha
  have hpages := h.pages.zoneKept hkept
  have hc : c ∉ others := fun hmem => ha.fresh (Finset.mem_union_left _ hmem)
  dsimp only at hok
  rw [if_neg hpos.ne'] at hok
  rcases findRun_spec s.bitmap (Nat.pos_of_ne_zero hzero) with ⟨start, hfind, hfirst⟩ | ⟨hfind, -⟩
  · rw [hfind] at hok
    dsimp only at hok
    obtain ⟨u, hu, hok⟩ := bind_eq_ok.mp hok
    obtain ⟨rfl, rfl⟩ := Prod.mk.inj (Except.ok.inj hok)
    have hbound := hfirst.bound
    have hclear : ∀ j ∈ List.range' start n, j < vmallocPages ∧ ¬PageMapped pg j := by
      intro j hj
      have hj := List.mem_range'_1.mp hj
      have hlt : j < vmallocPages := by omega
      refine ⟨hlt, fun hmapped => ?_⟩
      have hset := (hpages.mapped j hlt).mp hmapped
      have hfree := hfirst.run j hj.1 hj.2
      simp [hset] at hfree
    obtain ⟨pg', rfl, hin, hpg'⟩ := mapRegionPages (s := { s with pool := q, paging := pg }) hpages.paging
      List.nodup_range' hclear u hu
    refine .inr ⟨⟨c, start, n⟩, rfl, rfl, ?_, ⟨?_, ?_⟩, hfirst.run, rfl, ?_⟩
    · simp only [vmallocBase]
      omega
    · exact hlist.enter hc hpos hsize
    · exact hpages.insert (r := ⟨c, start, n⟩) (Nat.pos_of_ne_zero hzero) hbound hfirst.run hin hpg'
    · simp [enterRegion, Pool.store]
  · rw [hfind] at hok
    dsimp only at hok
    obtain ⟨u, hu, hok⟩ := bind_eq_ok.mp hok
    obtain ⟨rfl, rfl⟩ := Prod.mk.inj (Except.ok.inj hok)
    obtain ⟨lists', hs'⟩ := hlist.pool
    have hlive : c ∈ insert c others ∪ nodes rs := Finset.mem_union_left _ (Finset.mem_insert_self _ _)
    obtain ⟨q', pg', hf, hkept', huniq, -⟩ := kfreeObject_eq (s := { s with pool := q, paging := pg }) hs'
      hpages.paging hlive
    obtain rfl := huniq fuel u hu
    exact .inl ⟨rfl, ⟨hlist.kfree hc hf, hpages.zoneKept hkept'⟩, rfl, rfl⟩

/-- The node is taken off the list. -/
theorem unlink (h : VmShape L s others (l ++ r :: m)) :
    ListShape (unlinkRegion (l.map Region.node).getLast? r.node s).pool
        (unlinkRegion (l.map Region.node).getLast? r.node s).regionList (insert r.node others) (l ++ m) ∧
      (unlinkRegion (l.map Region.node).getLast? r.node s).bitmap = s.bitmap ∧
      (unlinkRegion (l.map Region.node).getLast? r.node s).paging = s.paging ∧
      (unlinkRegion (l.map Region.node).getLast? r.node s).regionList =
        if l = [] then s.pool.mem (r.node + 8) else s.regionList := by
  rw [List.getLast?_map]
  cases hlast : l.getLast? with
  | none =>
    obtain rfl := List.getLast?_eq_none_iff.mp hlast
    exact ⟨h.list.unlink_first, rfl, rfl, rfl⟩
  | some x =>
    have hne : l ≠ [] := by
      rintro rfl
      exact nomatch hlast
    refine ⟨h.list.unlink_behind hlast, rfl, rfl, ?_⟩
    rw [if_neg hne]
    rfl

/-- Taking it off leaves its length in place. -/
theorem unlink_npages (h : VmShape L s others (l ++ r :: m)) :
    (unlinkRegion (l.map Region.node).getLast? r.node s).pool.mem (r.node + 4) = r.npages := by
  have hr : r ∈ l ++ r :: m := List.mem_append_right _ List.mem_cons_self
  have hnpages := h.list.listed.npages r hr
  rw [List.getLast?_map]
  cases hlast : l.getLast? with
  | none => exact hnpages
  | some x =>
    have hx : x ∈ l := List.mem_of_getLast? hlast
    obtain ⟨lists, hs⟩ := h.list.pool
    have hxmem : x ∈ l ++ r :: m := List.mem_append_left _ hx
    have hdisjoint := hs.live_disjoint (mem_nodes hxmem) (mem_nodes hr) (h.list.node_ne (List.mem_append_left m hx))
    have hxsize := h.list.size x hxmem
    have hrsize := h.list.size r hr
    simp only [regionSize] at hxsize hrsize
    rw [← hnpages]
    exact Function.update_of_ne (by omega) _ _

/-- What `vfree` leaves behind the search. -/
theorem vfree_body (h : VmShape L s others (l ++ r :: m)) :
    ∃ t, Released L s t others l m r ∧
      (∀ fuel u, (kfreeObject fuel r.node (unlinkRegion (l.map Region.node).getLast? r.node s) >>=
        fun s => (List.range r.npages).foldlM (fun s i => unmapRegionPage s (r.start + i)) s) = .ok u → u = t) ∧
      ∃ bound, ∀ fuel, bound ≤ fuel →
        (kfreeObject fuel r.node (unlinkRegion (l.map Region.node).getLast? r.node s) >>=
          fun s => (List.range r.npages).foldlM (fun s i => unmapRegionPage s (r.start + i)) s) = .ok t := by
  obtain ⟨hlist, hbitmap, hpaging, hhead⟩ := h.unlink
  generalize unlinkRegion (l.map Region.node).getLast? r.node s = s₁ at hlist hbitmap hpaging hhead
  have hr : r ∈ l ++ r :: m := List.mem_append_right _ List.mem_cons_self
  have hfresh := h.list.fresh r hr
  obtain ⟨lists, hs⟩ := hlist.pool
  have hlive : r.node ∈ insert r.node others ∪ nodes (l ++ m) :=
    Finset.mem_union_left _ (Finset.mem_insert_self _ _)
  have hin : Paging.InOrder L s₁.paging := hpaging ▸ h.pages.paging
  obtain ⟨q, pg, hf, hkept, huniq, bound, hbound⟩ := kfreeObject_eq hs hin hlive
  have hpages : PageShape L s₁.bitmap pg (l ++ r :: m) := by
    rw [hbitmap]
    rw [hpaging] at hkept
    exact h.pages.zoneKept hkept
  have hrange : ∀ j ∈ List.range' r.start r.npages, j < vmallocPages := by
    intro j hj
    have hj := List.mem_range'_1.mp hj
    have hb := h.pages.bound r hr
    omega
  obtain ⟨pg', hloop, hin', hpg'⟩ := unmapRegionPages (s := { s₁ with pool := q, paging := pg }) hkept.inOrder hrange
  have hfold : ∀ u : VmState, (List.range r.npages).foldlM (fun s i => unmapRegionPage s (r.start + i)) u =
      (List.range' r.start r.npages).foldlM unmapRegionPage u := by
    intro u
    rw [List.range'_eq_map_range, List.foldlM_map]
  refine ⟨⟨(List.range' r.start r.npages).foldl bitmapClear s₁.bitmap, s₁.regionList, q, pg'⟩, ⟨⟨hlist.kfree hfresh hf, hpages.erase hin' hpg'⟩, ?_, hhead⟩, fun fuel u hu => ?_, bound,
    fun fuel hfuel => ?_⟩
  · rw [hbitmap]
  · obtain ⟨s₂, hs₂, hu⟩ := bind_eq_ok.mp hu
    obtain rfl := huniq fuel s₂ hs₂
    rw [hfold] at hu
    exact (Except.ok.inj (hloop.symm.trans hu)).symm
  · rw [hbound fuel hfuel, ok_bind, hfold]
    exact hloop

theorem addr_range (hr : r.start < vmallocPages) : r.addr ≠ 0 ∧ ¬(r.addr < vmallocBase ∨ vmallocMax ≤ r.addr) ∧
    (r.addr - vmallocBase) / pageSize = r.start := by
  have hpages : vmallocPages = 64512 := by decide
  simp only [Region.addr, vmallocBase, vmallocMax, pageSize]
  omega

/-- `vfree` of a region's address ends, in one way whatever the fuel. -/
theorem vfree (h : VmShape L s others (l ++ r :: m)) :
    ∃ t, Released L s t others l m r ∧ (∀ fuel u, vfree fuel r.addr s = .ok u → u = t) ∧
      ∃ fuel, vfree fuel r.addr s = .ok t := by
  obtain ⟨t, hreleased, huniq, bound, hbound⟩ := h.vfree_body
  have hr : r ∈ l ++ r :: m := List.mem_append_right _ List.mem_cons_self
  have hpos := h.pages.pos r hr
  have hend := h.pages.bound r hr
  obtain ⟨hnull, hzone, hidx⟩ := addr_range (r := r) (by omega)
  have hchain := h.list.listed.chain
  rw [List.map_append, List.map_cons] at hchain
  have hsearch : ∀ fuel, findRegion s.pool r.start fuel none (ptr s.regionList) =
      if (l.map Region.node).length < fuel then some ((l.map Region.node).getLast?, some r.node) else none := by
    intro fuel
    rw [findRegion_eq hchain ?_ (h.list.listed.start r hr), Option.or_none]
    intro a ha
    obtain ⟨x, hx, rfl⟩ := List.mem_map.mp ha
    rw [h.list.listed.start x (List.mem_append_left _ hx)]
    exact h.pages.start_ne (List.mem_append_left m hx)
  have hvfree : ∀ fuel, Vmalloc.vfree fuel r.addr s = if (l.map Region.node).length < fuel then
      kfreeObject fuel r.node (unlinkRegion (l.map Region.node).getLast? r.node s) >>= fun s =>
        (List.range r.npages).foldlM (fun s i => unmapRegionPage s (r.start + i)) s
      else .error .spin := by
    intro fuel
    unfold Vmalloc.vfree
    rw [if_neg hnull, if_neg hzone]
    dsimp only
    rw [hidx, hsearch]
    split
    · rw [ended, ok_bind]
      dsimp only
      rw [h.unlink_npages]
    · rfl
  refine ⟨t, hreleased, fun fuel u hu => ?_, max bound ((l.map Region.node).length + 1), ?_⟩
  · rw [hvfree] at hu
    split at hu
    · exact huniq fuel u hu
    · cases hu
  · rw [hvfree, if_pos (by omega)]
    exact hbound _ (le_max_left _ _)

end VmShape

/-- Regions apart from each other have as many pages together as each for itself. -/
theorem card_regions (hapart : rs.Pairwise Region.Apart) (hbound : ∀ r ∈ rs, r.start + r.npages ≤ vmallocPages) :
    ((Finset.range vmallocPages).filter fun i => ∃ r ∈ rs, r.Has i).card = (rs.map Region.npages).sum := by
  induction rs with
  | nil => simp
  | cons r rs ih =>
    obtain ⟨hr, hapart⟩ := List.pairwise_cons.mp hapart
    have hrb := hbound r List.mem_cons_self
    have hsplit : ((Finset.range vmallocPages).filter fun i => ∃ x ∈ r :: rs, x.Has i) =
        Finset.Ico r.start (r.start + r.npages) ∪
          ((Finset.range vmallocPages).filter fun i => ∃ x ∈ rs, x.Has i) := by
      ext i
      simp only [Finset.mem_filter, Finset.mem_range, Finset.mem_union, Finset.mem_Ico, List.mem_cons,
        exists_eq_or_imp, and_or_left]
      refine or_congr_left (and_iff_right_of_imp fun hri => ?_)
      have hi := hri.2
      omega
    have hdisjoint : Disjoint (Finset.Ico r.start (r.start + r.npages))
        ((Finset.range vmallocPages).filter fun i => ∃ x ∈ rs, x.Has i) := by
      rw [Finset.disjoint_left]
      intro i hri hother
      obtain ⟨x, hx, hxi⟩ := (Finset.mem_filter.mp hother).2
      have hrx := hr x hx
      rw [Finset.mem_Ico] at hri
      unfold Region.Apart at hrx
      unfold Region.Has at hxi
      omega
    rw [hsplit, Finset.card_union_of_disjoint hdisjoint, Nat.card_Ico, List.map_cons, List.sum_cons,
      ih hapart fun x hx => hbound x (List.mem_cons_of_mem r hx)]
    omega

/-- The bits that are set are as many as the regions have pages. -/
theorem PageShape.usedPages (h : PageShape L bm pg rs) :
    (List.range vmallocPages).countP (bitmapTest bm) = (rs.map Region.npages).sum := by
  rw [countP_range, ← card_regions h.apart h.bound]
  refine congrArg Finset.card (Finset.filter_congr fun i hi => ?_)
  exact h.bits i (Finset.mem_range.mp hi)

theorem VmShape.query (h : VmShape L s others rs) (fuel : ℕ) : vmallocQuery fuel s =
    if rs.length < fuel then .ok ⟨(rs.map Region.npages).sum, vmallocPages, rs.length⟩ else .error .spin := by
  unfold vmallocQuery
  rw [countRegions_eq h.list.listed.chain, List.length_map, h.pages.usedPages]
  split
  · rfl
  · rfl

/-- `vmalloc_init` has run: the pool and the page tables are those of a running kernel in which
nobody has mapped a page of the zone. -/
structure VmStart (L : Layout) (s : VmState) : Prop where
  bitmap : ∃ old, s.bitmap = vmallocInit old
  regionList : s.regionList = 0
  pool : ∃ live request, PoolReachable ⟨s.pool, live, request⟩
  paging : PagingReachable L s.paging
  window : Present (ByteMemory.load32 s.paging.mem (s.paging.cr3 + 4 * 1023))
  unmapped : ∀ i < vmallocPages, ¬Mapped s.paging.mem s.paging.cr3 (vmallocBase + i * pageSize)

/-- Histories of calls that return, with the addresses that were returned and not yet freed. -/
inductive VmRun (L : Layout) : VmState → Finset ℕ → Prop where
  | start {s : VmState} (h : VmStart L s) : VmRun L s ∅
  | vmalloc {s t : VmState} {held : Finset ℕ} {fuel n a : ℕ} (h : VmRun L s held)
      (hok : vmalloc fuel n s = .ok (a, t)) : VmRun L t (if a = 0 then held else insert a held)
  | vfree {s t : VmState} {held : Finset ℕ} {fuel a : ℕ} (h : VmRun L s held) (ha : a ∈ held)
      (hok : vfree fuel a s = .ok t) : VmRun L t (held.erase a)

theorem vmallocInit_clear (old : Bitmap) (hi : i < vmallocPages) : bitmapTest (vmallocInit old) i = false := by
  have hword : i / 32 < bitmapWords := by
    have hpages : vmallocPages = 64512 := by decide
    have hwords : bitmapWords = 2016 := by decide
    omega
  rw [bitmapTest, vmallocInit, if_pos hword]
  simp

theorem VmStart.shape (h : VmStart L s) : ∃ others, VmShape L s others [] := by
  obtain ⟨old, hbitmap⟩ := h.bitmap
  obtain ⟨live, request, hpool⟩ := h.pool
  obtain ⟨lists, hs⟩ := hpool.invariant.shape
  obtain ⟨cur, owner, hsound⟩ := h.paging.covered
  have hwindow := h.window
  rw [hsound.cr3] at hwindow
  have hclear : ∀ i < vmallocPages, bitmapTest s.bitmap i = false := by
    intro i hi
    rw [hbitmap]
    exact vmallocInit_clear old hi
  have hnone : ∀ r : Region, r ∉ ([] : List Region) := fun r => List.not_mem_nil
  have hlist : ListShape s.pool s.regionList live [] := by
    refine ⟨⟨?_, fun r hr => absurd hr (hnone r), fun r hr => absurd hr (hnone r)⟩, ⟨lists, ?_⟩,
      fun r hr => absurd hr (hnone r), fun r hr => absurd hr (hnone r)⟩
    · rw [h.regionList]
      rfl
    · have hlive : live ∪ nodes [] = live := Finset.union_empty live
      rw [hlive]
      exact hs
  have hpages : PageShape L s.bitmap s.paging [] := by
    refine ⟨fun r hr => absurd hr (hnone r), fun r hr => absurd hr (hnone r), List.Pairwise.nil, fun i hi => ?_,
      fun i hi => ?_, cur, owner, hsound, hsound.homed.window hwindow⟩
    · rw [hclear i hi]
      refine iff_of_false Bool.false_ne_true fun hc => ?_
      obtain ⟨r, hr, -⟩ := hc
      exact hnone r hr
    · rw [hclear i hi]
      exact iff_of_false (h.unmapped i hi) Bool.false_ne_true
  exact ⟨live, hlist, hpages⟩

/-- The addresses handed out are those of the regions. -/
def Holds (held : Finset ℕ) (rs : List Region) : Prop := ∀ a, a ∈ held ↔ ∃ r ∈ rs, a = r.addr

theorem addr_ne (h : r.start ≠ x.start) : r.addr ≠ x.addr := by
  simp only [Region.addr, pageSize]
  omega

theorem VmRun.shape {held : Finset ℕ} (h : VmRun L s held) : ∃ others rs, VmShape L s others rs ∧ Holds held rs := by
  induction h with
  | start h =>
    obtain ⟨others, hshape⟩ := h.shape
    exact ⟨others, [], hshape, fun a => by simp⟩
  | @vmalloc s t held fuel n a h hok ih =>
    obtain ⟨others, rs, hshape, hheld⟩ := ih
    rcases hshape.vmalloc hok with ⟨rfl, hrefused⟩ | ⟨r, -, rfl, hne, hreserved⟩
    · exact ⟨others, rs, hrefused.shape, hheld⟩
    · refine ⟨others, r :: rs, hreserved.shape, fun b => ?_⟩
      rw [if_neg hne, Finset.mem_insert, hheld b]
      simp only [List.mem_cons, exists_eq_or_imp]
  | @vfree s t held fuel a h ha hok ih =>
    obtain ⟨others, rs, hshape, hheld⟩ := ih
    obtain ⟨r, hr, rfl⟩ := (hheld a).mp ha
    obtain ⟨l, m, rfl⟩ := List.append_of_mem hr
    obtain ⟨u, hreleased, huniq, -⟩ := hshape.vfree
    obtain rfl := huniq fuel t hok
    refine ⟨others, l ++ m, hreleased.shape, fun b => ?_⟩
    rw [Finset.mem_erase, hheld b]
    constructor
    · rintro ⟨hne, x, hx, rfl⟩
      refine ⟨x, ?_, rfl⟩
      rcases List.mem_append.mp hx with hx | hx
      · exact List.mem_append_left _ hx
      · rcases List.mem_cons.mp hx with rfl | hx
        · exact absurd rfl hne
        · exact List.mem_append_right _ hx
    · rintro ⟨x, hx, rfl⟩
      exact ⟨addr_ne (hshape.pages.start_ne hx), x, mem_of_mem hx, rfl⟩

/-- What the regions on the list say about the bitmap, the page tables and `vmalloc_query`. -/
structure VmRepresents (s : VmState) (rs : List Region) : Prop where
  listed : Listed s.pool s.regionList rs
  apart : rs.Pairwise Region.Apart
  bound : ∀ r ∈ rs, r.start + r.npages ≤ vmallocPages
  bits : ∀ i < vmallocPages, bitmapTest s.bitmap i = true ↔ ∃ r ∈ rs, r.Has i
  mapped : ∀ i < vmallocPages,
    Mapped s.paging.mem s.paging.cr3 (vmallocBase + i * pageSize) ↔ bitmapTest s.bitmap i = true
  query : ∀ fuel, vmallocQuery fuel s =
    if rs.length < fuel then .ok ⟨(rs.map Region.npages).sum, vmallocPages, rs.length⟩ else .error .spin

/-- The bitmap is the same and the list spells out the same regions from the same node on. -/
structure SameRegions (s t : VmState) (rs : List Region) : Prop where
  bitmap : t.bitmap = s.bitmap
  regionList : t.regionList = s.regionList
  listed : Listed t.pool t.regionList rs

namespace VmShape

theorem represents (h : VmShape L s others rs) : VmRepresents s rs :=
  ⟨h.list.listed, h.pages.apart, h.pages.bound, h.pages.bits, h.pages.mapped, h.query⟩

theorem vfree_ends (h : VmShape L s others rs) (hr : r ∈ rs) : ∃ fuel t, Vmalloc.vfree fuel r.addr s = .ok t := by
  obtain ⟨l, m, rfl⟩ := List.append_of_mem hr
  obtain ⟨t, -, -, fuel, hok⟩ := h.vfree
  exact ⟨fuel, t, hok⟩

end VmShape

/-- `vfree` of a region that was just handed out. -/
theorem Reserved.vfree {u : VmState} (h : Reserved L s t others rs r) (hok : Vmalloc.vfree fuel r.addr t = .ok u) :
    SameRegions s u rs := by
  have hfirst : VmShape L t others ([] ++ r :: rs) := h.shape
  obtain ⟨u', hreleased, huniq, -⟩ := hfirst.vfree
  obtain rfl := huniq fuel u hok
  have hclear : ∀ i ∈ List.range' r.start r.npages, bitmapTest s.bitmap i = false := by
    intro i hi
    have hi := List.mem_range'_1.mp hi
    have hfree := h.run i hi.1 hi.2
    simpa using hfree
  refine ⟨?_, ?_, hreleased.shape.list.listed⟩
  · rw [hreleased.bitmap, h.bitmap]
    exact foldl_clear_set hclear
  · rw [hreleased.regionList, if_pos rfl]
    exact h.next

/-- In every state that calls of `vmalloc` and `vfree` reach, the list, the bitmap, the page tables and
the statistics agree; what was handed out can be freed, a null result changes nothing, and a
`vmalloc` is undone by its `vfree`. -/
theorem vmalloc_representation (L : Layout) (s : VmState) (held : Finset ℕ) (h : VmRun L s held) :
    ∃ rs, VmRepresents s rs ∧ (∀ a ∈ held, ∃ fuel t, vfree fuel a s = .ok t) ∧
      (∀ fuel n t, vmalloc fuel n s = .ok (0, t) → SameRegions s t rs) ∧
      ∀ fuel n a t, vmalloc fuel n s = .ok (a, t) →
        (∃ fuel' u, vfree fuel' a t = .ok u) ∧ ∀ fuel' u, vfree fuel' a t = .ok u → SameRegions s u rs := by
  obtain ⟨others, rs, hshape, hheld⟩ := h.shape
  refine ⟨rs, hshape.represents, fun a ha => ?_, fun fuel n t hok => ?_, fun fuel n a t hok => ?_⟩
  · obtain ⟨r, hr, rfl⟩ := (hheld a).mp ha
    exact hshape.vfree_ends hr
  · rcases hshape.vmalloc hok with ⟨-, hrefused⟩ | ⟨r, -, -, hne, -⟩
    · exact ⟨hrefused.bitmap, hrefused.regionList, hrefused.shape.list.listed⟩
    · exact absurd rfl hne
  · rcases hshape.vmalloc hok with ⟨rfl, hrefused⟩ | ⟨r, -, rfl, -, hreserved⟩
    · have hnull : ∀ fuel', vfree fuel' 0 t = .ok t := fun _ => if_pos rfl
      refine ⟨⟨0, t, hnull 0⟩, fun fuel' u hu => ?_⟩
      obtain rfl := Except.ok.inj ((hnull fuel').symm.trans hu)
      exact ⟨hrefused.bitmap, hrefused.regionList, hrefused.shape.list.listed⟩
    · exact ⟨hreserved.shape.vfree_ends List.mem_cons_self, fun fuel' u => hreserved.vfree⟩

/-- The allocator as it stands at boot. -/
def vmBoot : VmState :=
  ⟨vmallocInit fun _ => 0, 0, Kmalloc.kmallocInit fun _ => 0, Paging.bootState⟩

theorem vmBoot_start : VmStart Paging.sampleLayout vmBoot := by
  have hcr3 : Paging.bootState.cr3 = Paging.sampleLayout.dir 0 * 4096 := Paging.bootState_sound.cr3
  refine ⟨⟨fun _ => 0, rfl⟩, rfl, ⟨∅, fun _ => 0, .start ⟨rfl, _, rfl⟩⟩, .start Paging.bootState_booted, ?_,
    fun i hi => ?_⟩
  · have hpresent := Paging.bootState_window.present
    unfold PagingState.entry at hpresent
    rw [← hcr3] at hpresent
    exact hpresent
  · have hpages : vmallocPages = 64512 := by decide
    intro hmapped
    have hmaps := (Paging.mapped_iff hcr3).mp hmapped
    have hpde : pdIndex (vmallocBase + i * pageSize) = 960 + i / 1024 := by
      simp only [pdIndex, vmallocBase, pageSize]
      omega
    rw [hpde] at hmaps
    exact Paging.bootState_absent (by omega) (by omega) (by omega) hmaps.1

/-- The node of the first region takes a page of the chunk pool. -/
theorem vmBoot_node : ∃ c q pg, kmallocObject regionSize vmBoot = .ok (c, { vmBoot with pool := q, paging := pg }) ∧
    c ≠ 0 ∧ (∃ owner, Paging.Sound Paging.sampleLayout 0 pg owner) ∧ Paging.Window pg (Paging.sampleLayout.dir 0) ∧
    Paging.Spare pg.bitmap 2 := by
  have hpage : PoolPage vmBoot.pool.vptr := ⟨by decide, by decide, by decide⟩
  have hgrows : poolGrows regionSize vmBoot.pool = true := by decide
  obtain ⟨pg, hpg, hallocs, hsound, hwindow⟩ := Paging.bootState_sound.allocPage_succeeds Paging.bootState_window
    hpage.paged (Paging.bootState_spare.mono (by decide)) (Paging.pagePresent ||| Paging.pageRw)
  obtain ⟨c, q, hq⟩ := @Kmalloc.kmalloc_init regionSize (fun _ => 0) (by decide) (by decide)
  have hnode : kmallocObject regionSize vmBoot = .ok (c, { vmBoot with pool := q, paging := pg }) := by
    have hpage : takePoolPage regionSize vmBoot = .ok (vmBoot.pool.vptr, pg) := by
      rw [takePoolPage, if_pos hgrows]
      exact hpg
    have hmapped : decide (vmBoot.pool.vptr ≠ 0) = true := by decide
    rw [kmallocObject, hpage, ok_bind]
    dsimp only
    rw [hmapped]
    exact congrArg (· >>= _) hq
  refine ⟨c, q, pg, hnode, ?_, hsound, hwindow, hallocs.spare (Paging.bootState_spare.mono (by decide))⟩
  obtain ⟨others, hshape⟩ := vmBoot_start.shape
  obtain ⟨lists, hs⟩ := hshape.list.pool
  obtain ⟨q', pg', heq, ha, -⟩ := kmallocObject_ok hs hshape.pages.paging (by decide) (by decide) hnode
  exact (hshape.list.kmalloc ha).2.2.ne'

/-- The first `vmalloc` after boot returns a page. -/
theorem vmBoot_vmalloc : ∃ a t, vmalloc 0 1 vmBoot = .ok (a, t) ∧ a ≠ 0 := by
  obtain ⟨c, q, pg, hnode, hc, ⟨owner, hsound⟩, hwindow, hspare⟩ := vmBoot_node
  rcases findRun_spec vmBoot.bitmap Nat.one_pos with ⟨start, hfind, hfirst⟩ | ⟨-, hnone⟩
  · have hlt : start < vmallocPages := hfirst.bound
    obtain ⟨pg', hpg', -⟩ := hsound.allocPage_succeeds hwindow (zone_paged hlt) hspare
      (Paging.pagePresent ||| Paging.pageRw)
    have hne : vmallocBase + start * pageSize ≠ 0 := by
      simp only [vmallocBase]
      omega
    have hmap : mapRegionPage { vmBoot with pool := q, paging := pg } start =
        .ok ⟨bitmapSet vmBoot.bitmap start, vmBoot.regionList, q, pg'⟩ := by
      rw [mapRegionPage, hpg', ok_bind, if_neg hne]
    refine ⟨_, enterRegion c start 1 ⟨bitmapSet vmBoot.bitmap start, vmBoot.regionList, q, pg'⟩, ?_, hne⟩
    rw [vmalloc, if_neg Nat.one_ne_zero, hnode, ok_bind]
    dsimp only
    rw [if_neg hc, hfind]
    dsimp only
    rw [List.range'_one, List.foldlM_cons, hmap]
    rfl
  · have hpages : 0 < vmallocPages := by decide
    refine absurd (fun i hlow hi => ?_) (hnone 0 hpages)
    have hclear : bitmapTest vmBoot.bitmap i = false := vmallocInit_clear _ (by omega)
    exact congrArg (! ·) hclear

/-- After boot and one `vmalloc` the views agree, and the region can be freed. -/
theorem vmalloc_representation_first : ∃ a t, a ≠ 0 ∧ VmRun Paging.sampleLayout t {a} ∧
    (∃ rs, VmRepresents t rs) ∧ ∃ fuel u, vfree fuel a t = .ok u := by
  obtain ⟨a, t, hok, hne⟩ := vmBoot_vmalloc
  have hrun : VmRun Paging.sampleLayout t {a} := by
    have hnext := (VmRun.start vmBoot_start).vmalloc hok
    rw [if_neg hne] at hnext
    exact hnext
  obtain ⟨rs, hrepresents, hfree, -⟩ := vmalloc_representation Paging.sampleLayout t {a} hrun
  exact ⟨a, t, hne, hrun, ⟨rs, hrepresents⟩, hfree a (Finset.mem_singleton_self a)⟩

end HekaOS.Vmalloc
