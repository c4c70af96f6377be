import Mathlib.Algebra.BigOperators.Group.List.Basic
import HekaOS.KmallocInvariant
import HekaOS.PageCalls
import HekaOS.Vmalloc

/-!
# The regions of `vmalloc`

The list of regions as the nodes spell it out, the first-fit search over the bitmap, and what the
calls that map and unmap single pages do to the pages of the zone.
-/

namespace HekaOS.Vmalloc
open MachineWord KernelMemory KernelTriples WordBitmap FirstFit AddressMap PointerChain PageWalk
open Paging (PagingState Layout Sound Owner Window Paged ScratchVa Maps mapped_iff allocPage freePage)
open Kmalloc (Pool pageOf PoolShape)
open Tasks (pageSize maxProc)

variable {bm : Bitmap} {p q : Pool} {n w i j a fuel : ℕ} {st : ℕ × ℕ}

/-- A full word only resets the count. -/
theorem scan_full (h : bm w = BitVec.allOnes 32) :
    ((List.range 32).map fun b => w * 32 + b).foldlM (scanStep (fun i => !bitmapTest bm i) n) st = .ok (0, st.2) := by
  have hloop : ∀ (l : List ℕ) (st : ℕ × ℕ), (∀ b ∈ l, b < 32) → l ≠ [] →
      (l.map fun b => w * 32 + b).foldlM (scanStep (fun i => !bitmapTest bm i) n) st = .ok (0, st.2) := by
    intro l
    induction l with
    | nil => exact fun _ _ hne => absurd rfl hne
    | cons b l ih =>
      intro st hl _
      have hused := bitmapTest_of_full h (hl b List.mem_cons_self)
      have hstep : scanStep (fun i => !bitmapTest bm i) n st (w * 32 + b) = .ok (0, st.2) := by
        simp [scanStep, hused]
      rw [List.map_cons, List.foldlM_cons, hstep]
      cases l with
      | nil => rfl
      | cons b' l => exact ih (0, st.2) (fun k hk => hl k (List.mem_cons_of_mem b hk)) (List.cons_ne_nil b' l)
  exact hloop _ st (fun b hb => List.mem_range.mp hb) (by decide)

theorem scanWord_eq (hw : w < bitmapWords) : scanWord bm n st w =
    ((List.range 32).map fun b => w * 32 + b).foldlM (scanStep (fun i => !bitmapTest bm i) n) st := by
  unfold scanWord
  split
  · rename_i hfull
    exact (scan_full hfull).symm
  · rw [List.foldlM_map]
    refine foldlM_congr (fun b hb st => if_neg ?_) st
    have hb := List.mem_range.mp hb
    have hwords : bitmapWords = 2016 := by decide
    have hpages : vmallocPages = 64512 := by decide
    omega

theorem scan_eq (bm : Bitmap) (n : ℕ) : (List.range bitmapWords).foldlM (scanWord bm n) (0, 0) =
    (List.range vmallocPages).foldlM (scanStep (fun i => !bitmapTest bm i) n) (0, 0) := by
  have hpages : vmallocPages = bitmapWords * 32 := by decide
  rw [hpages, range_eq_flatMap, foldlM_flatMap]
  exact foldlM_congr (fun w hw st => scanWord_eq (List.mem_range.mp hw)) _

/-- The search finds the first run of clear bits that is long enough. -/
theorem findRun_spec (bm : Bitmap) (hn : 0 < n) :
    (∃ start, findRun bm n = some start ∧ IsFirstRun (fun i => !bitmapTest bm i) n vmallocPages start) ∨
      findRun bm n = none ∧ ∀ start, start + n ≤ vmallocPages → ¬IsRun (fun i => !bitmapTest bm i) n start := by
  unfold findRun
  rw [scan_eq]
  rcases scan_spec hn vmallocPages with ⟨start, hend, hfirst⟩ | ⟨st, hend, hnone⟩
  · rw [hend]
    exact .inl ⟨start, rfl, hfirst⟩
  · rw [hend]
    exact .inr ⟨rfl, hnone⟩

/-- A node of the list. -/
structure Region where
  node : ℕ
  start : ℕ
  npages : ℕ

/-- The page belongs to the region. -/
def Region.Has (r : Region) (i : ℕ) : Prop := r.start ≤ i ∧ i < r.start + r.npages

instance (r : Region) (i : ℕ) : Decidable (r.Has i) := inferInstanceAs (Decidable (_ ∧ _))

/-- The page intervals do not overlap. -/
def Region.Apart (r r' : Region) : Prop := r.start + r.npages ≤ r'.start ∨ r'.start + r'.npages ≤ r.start

/-- The nodes from `head` on spell out the regions. -/
structure Listed (p : Pool) (head : ℕ) (rs : List Region) : Prop where
  chain : Chain (regionNext p) (ptr head) (rs.map Region.node)
  start : ∀ r ∈ rs, p.mem r.node = r.start
  npages : ∀ r ∈ rs, p.mem (r.node + 4) = r.npages

variable {rs l m : List Region} {r : Region} {head c idx : ℕ}

theorem Listed.congr (h : Listed p head rs) (hsame : ∀ r ∈ rs, ∀ k < regionSize, q.mem (r.node + k) = p.mem (r.node + k)) :
    Listed q head rs := by
  refine ⟨h.chain.congr fun a ha => ?_, fun r hr => ?_, fun r hr => ?_⟩
  · obtain ⟨r, hr, rfl⟩ := List.mem_map.mp ha
    exact congrArg ptr (hsame r hr 8 (by decide))
  · rw [← h.start r hr]
    exact hsame r hr 0 (by decide)
  · rw [← h.npages r hr]
    exact hsame r hr 4 (by decide)

/-- The search of `vfree` ends at the first node with the start it looks for. -/
theorem findRegion_eq {prev cur : Option ℕ} {l m : List ℕ} (h : Chain (regionNext p) cur (l ++ c :: m))
    (hl : ∀ a ∈ l, p.mem a ≠ idx) (hc : p.mem c = idx) (fuel : ℕ) :
    findRegion p idx fuel prev cur = if l.length < fuel then some (l.getLast?.or prev, some c) else none := by
  induction l generalizing prev cur fuel with
  | nil =>
    obtain ⟨rfl, -⟩ := h
    cases fuel with
    | zero => rfl
    | succ fuel =>
      rw [findRegion, if_pos hc]
      exact (if_pos (Nat.succ_pos fuel)).symm
  | cons a l ih =>
    obtain ⟨rfl, h⟩ := h
    cases fuel with
    | zero => rfl
    | succ fuel =>
      rw [findRegion, if_neg (hl a List.mem_cons_self), ih h (fun b hb => hl b (List.mem_cons_of_mem a hb))]
      have hlast : l.getLast?.or (some a) = (a :: l).getLast?.or prev := by
        rw [List.getLast?_cons]
        cases l.getLast? <;> rfl
      rw [hlast, List.length_cons]
      simp only [Nat.add_lt_add_iff_right]

theorem countRegions_eq {cur : Option ℕ} {l : List ℕ} (h : Chain (regionNext p) cur l) (fuel : ℕ) :
    countRegions p fuel cur = if l.length < fuel then some l.length else none := by
  induction l generalizing cur fuel with
  | nil =>
    obtain rfl : cur = none := h
    cases fuel with
    | zero => rfl
    | succ fuel =>
      rw [countRegions]
      exact (if_pos (Nat.succ_pos fuel)).symm
  | cons a l ih =>
    obtain ⟨rfl, h⟩ := h
    cases fuel with
    | zero => rfl
    | succ fuel =>
      rw [countRegions, ih h, List.length_cons]
      simp only [Nat.add_lt_add_iff_right]
      split
      · rfl
      · rfl

/-- The page of the zone is mapped in the current directory. -/
def PageMapped (s : PagingState) (j : ℕ) : Prop := Mapped s.mem s.cr3 (vmallocBase + j * pageSize)

theorem zone_paged (hj : j < vmallocPages) : Paged (vmallocBase + j * pageSize) := by
  have hpages : vmallocPages = 64512 := by decide
  simp only [vmallocBase, pageSize]
  exact ⟨by omega, by omega, by omega⟩

theorem zone_not_scratch : ¬ScratchVa (vmallocBase + j * pageSize) := by
  rintro (hc | hc)
  · simp only [vmallocBase, pageSize, forkScratchPtVa] at hc
    omega
  · simp only [vmallocBase, pageSize, forkScratchDataVa] at hc
    omega

theorem zone_ne (hij : i ≠ j) : vmallocBase + i * pageSize ≠ vmallocBase + j * pageSize := by
  simp only [pageSize]
  omega

/-- A page of the chunk pool. -/
structure PoolPage (a : ℕ) : Prop where
  aligned : Kmalloc.pageSize ∣ a
  above : Kmalloc.kcpoolVirtBase ≤ a
  below : a ≤ Kmalloc.kcpoolVirtMax

theorem PoolPage.paged (h : PoolPage a) : Paged a := by
  have haligned := h.aligned
  have habove := h.above
  have hbelow := h.below
  simp only [Kmalloc.pageSize, Kmalloc.kcpoolVirtBase, Kmalloc.kcpoolVirtMax] at *
  exact ⟨by omega, by omega, by omega⟩

theorem PoolPage.not_scratch (h : PoolPage a) : ¬ScratchVa a := by
  have hbelow := h.below
  simp only [Kmalloc.kcpoolVirtMax] at hbelow
  rintro (hc | hc)
  · simp only [forkScratchPtVa] at hc
    omega
  · simp only [forkScratchDataVa] at hc
    omega

theorem PoolPage.ne_zone (h : PoolPage a) : vmallocBase + j * pageSize ≠ a := by
  have hbelow := h.below
  simp only [vmallocBase, pageSize, Kmalloc.kcpoolVirtMax] at *
  omega

variable {L : Layout} {s t : VmState} {live : Finset ℕ} {lists : ℕ → List ℕ} {size : ℕ}

/-- Paging as it was, for the pages of the zone. -/
structure ZoneKept (L : Layout) (s t : PagingState) : Prop where
  inOrder : Paging.InOrder L t
  zone : ∀ j < vmallocPages, PageMapped t j ↔ PageMapped s j

/-- What `kmalloc` does to the pool and to the pages. -/
theorem kmallocObject_ok (hs : PoolShape s.pool live lists) (hp : Paging.InOrder L s.paging) (h₁ : 1 ≤ size)
    (h₂ : size ≤ 256) (hok : kmallocObject size s = .ok (c, t)) :
    ∃ q pg, t = { s with pool := q, paging := pg } ∧ Kmalloc.Allocated size s.pool q live c ∧
      ZoneKept L s.paging pg := by
  unfold kmallocObject at hok
  obtain ⟨r, hr, hok⟩ := bind_eq_ok.mp hok
  obtain ⟨⟨c', q⟩, hq, hok⟩ := bind_eq_ok.mp hok
  obtain ⟨rfl, rfl⟩ := Prod.mk.inj (Except.ok.inj hok)
  refine ⟨q, r.2, rfl, Kmalloc.kmalloc_ok hs h₁ h₂ hq, ?_⟩
  unfold takePoolPage at hr
  split at hr
  · have hpage : PoolPage s.pool.vptr := ⟨hs.vptr_aligned, hs.base_le, hs.vptr_le⟩
    obtain ⟨hin, -, hothers⟩ := hp.allocPage hpage.paged hr
    exact ⟨hin, fun j hj => hothers _ (zone_paged hj) hpage.ne_zone⟩
  · obtain rfl := Except.ok.inj hr
    exact ⟨hp, fun _ _ => Iff.rfl⟩

/-- `kfree` of a live object ends, in one way whatever the fuel. -/
theorem kfreeObject_eq (hs : PoolShape s.pool live lists) (hp : Paging.InOrder L s.paging) (hc : c ∈ live) :
    ∃ q pg, Kmalloc.Freed s.pool q live c ∧ ZoneKept L s.paging pg ∧
      (∀ fuel t, kfreeObject fuel c s = .ok t → t = { s with pool := q, paging := pg }) ∧
      ∃ bound, ∀ fuel, bound ≤ fuel → kfreeObject fuel c s = .ok { s with pool := q, paging := pg } := by
  obtain ⟨q, hf, huniq, bound, hbound⟩ := Kmalloc.kfree_eq hs hc
  have hpage : PoolPage (pageOf c) := by
    obtain ⟨h₁, h₂, h₃⟩ := hs.page _ (hs.mem_live hc).1
    have := hs.vptr_le
    exact ⟨h₁, h₂, by omega⟩
  obtain ⟨pg, hpg, hkept⟩ : ∃ pg, dropPoolPage c q s = .ok pg ∧ ZoneKept L s.paging pg := by
    unfold dropPoolPage
    split
    · obtain ⟨pg, hpg, hin, -, hothers⟩ := hp.freePage hpage.paged hpage.not_scratch
      exact ⟨pg, hpg, hin, fun j hj => hothers _ (zone_paged hj) hpage.ne_zone⟩
    · exact ⟨_, rfl, hp, fun _ _ => Iff.rfl⟩
  refine ⟨q, pg, hf, hkept, fun fuel t ht => ?_, bound, fun fuel hfuel => ?_⟩
  · unfold kfreeObject at ht
    obtain ⟨q', hq', ht⟩ := bind_eq_ok.mp ht
    obtain rfl := huniq fuel q' hq'
    obtain ⟨pg', hpg', ht⟩ := bind_eq_ok.mp ht
    obtain rfl := Except.ok.inj (hpg.symm.trans hpg')
    exact (Except.ok.inj ht).symm
  · unfold kfreeObject
    rw [hbound fuel hfuel, ok_bind, hpg]
    rfl

/-- The loop that maps the pages of a new region. -/
theorem mapRegionPages {l : List ℕ} (hp : Paging.InOrder L s.paging) (hnodup : l.Nodup)
    (hl : ∀ j ∈ l, j < vmallocPages ∧ ¬PageMapped s.paging j) :
    Ensures (l.foldlM mapRegionPage s) fun t =>
      ∃ pg, t = { s with paging := pg, bitmap := l.foldl bitmapSet s.bitmap } ∧ Paging.InOrder L pg ∧
        ∀ i < vmallocPages, PageMapped pg i ↔ PageMapped s.paging i ∨ i ∈ l := by
  induction l generalizing s with
  | nil => exact ensures_ok ⟨s.paging, rfl, hp, fun i _ => by simp⟩
  | cons j l ih =>
    rw [List.foldlM_cons]
    obtain ⟨hjl, hnodup⟩ := List.nodup_cons.mp hnodup
    obtain ⟨hj, hunmapped⟩ := hl j List.mem_cons_self
    intro u hu
    obtain ⟨t, ht, hu⟩ := bind_eq_ok.mp hu
    obtain ⟨r, hr, ht⟩ := bind_eq_ok.mp ht
    obtain ⟨hin, hhere, hothers⟩ := hp.allocPage (zone_paged hj) hr
    obtain ⟨hne, ht⟩ := ite_kpanic_eq_ok.mp ht
    obtain rfl := Except.ok.inj ht
    have hstep : ∀ i < vmallocPages, PageMapped r.2 i ↔ PageMapped s.paging i ∨ i = j := by
      intro i hi
      by_cases hij : i = j
      · subst hij
        exact iff_of_true ((hhere hunmapped).mpr hne) (.inr rfl)
      · rw [or_iff_left hij]
        exact hothers _ (zone_paged hi) (zone_ne hij)
    have hrest : ∀ i ∈ l, i < vmallocPages ∧ ¬PageMapped r.2 i := by
      intro i hi
      obtain ⟨hlt, hfree⟩ := hl i (List.mem_cons_of_mem j hi)
      refine ⟨hlt, fun hc => ?_⟩
      rcases (hstep i hlt).mp hc with hmapped | rfl
      · exact hfree hmapped
      · exact hjl hi
    obtain ⟨pg, rfl, hin', hpg⟩ := ih (s := { s with paging := r.2, bitmap := bitmapSet s.bitmap j }) hin hnodup hrest u hu
    refine ⟨pg, rfl, hin', fun i hi => ?_⟩
    rw [hpg i hi, hstep i hi, List.mem_cons, or_assoc]

/-- The loop that unmaps the pages of a dead region. -/
theorem unmapRegionPages {l : List ℕ} (hp : Paging.InOrder L s.paging) (hl : ∀ j ∈ l, j < vmallocPages) :
    ∃ pg, l.foldlM unmapRegionPage s = .ok { s with paging := pg, bitmap := l.foldl bitmapClear s.bitmap } ∧
      Paging.InOrder L pg ∧ ∀ i < vmallocPages, PageMapped pg i ↔ PageMapped s.paging i ∧ i ∉ l := by
  induction l generalizing s with
  | nil => exact ⟨s.paging, rfl, hp, fun i _ => by simp⟩
  | cons j l ih =>
    have hj := hl j List.mem_cons_self
    obtain ⟨pg₁, hok, hin, hhere, hothers⟩ := hp.freePage (zone_paged hj) zone_not_scratch
    have hstep : ∀ i < vmallocPages, PageMapped pg₁ i ↔ PageMapped s.paging i ∧ i ≠ j := by
      intro i hi
      by_cases hij : i = j
      · subst hij
        exact iff_of_false hhere fun hc => hc.2 rfl
      · rw [and_iff_left hij]
        exact hothers _ (zone_paged hi) (zone_ne hij)
    obtain ⟨pg, hrest, hin', hpg⟩ := ih (s := { s with paging := pg₁, bitmap := bitmapClear s.bitmap j }) hin
      fun i hi => hl i (List.mem_cons_of_mem j hi)
    refine ⟨pg, ?_, hin', fun i hi => ?_⟩
    · rw [List.foldlM_cons, unmapRegionPage, hok]
      exact hrest
    · rw [hpg i hi, hstep i hi, List.mem_cons, not_or, and_assoc]

end HekaOS.Vmalloc
