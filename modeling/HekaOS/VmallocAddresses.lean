import HekaOS.VmallocInvariant

/-!
# The addresses of the `vmalloc` zone

The search of `vmalloc`, which steps over full words, gives the answer of the plain scan, for every
bitmap; `vbrk` tells the address of the next single page. `vfree` looks a region up by the page of
the address it is given, so that it takes every address in the first page of a region.
-/

namespace HekaOS.Vmalloc
open MachineWord KernelMemory KernelTriples WordBitmap FirstFit AddressMap PointerChain
open Paging (Layout)
open Kmalloc (Pool PoolShape)
open Tasks (pageSize)

variable {L : Layout} {s t : VmState} {p q : Pool} {bm : Bitmap} {others live held : Finset ℕ} {rs : List Region}
  {r : Region} {a b c i n idx fuel size : ℕ} {lists : ℕ → List ℕ} {prev cur : Option ℕ} {l : List ℕ}

/-- The search bit by bit. -/
def plainScan (bm : Bitmap) (npages : ℕ) : Option ℕ :=
  match (List.range vmallocPages).foldlM (scanStep (fun i => !bitmapTest bm i) npages) (0, 0) with
  | .error start => some start
  | .ok _ => none

theorem findRun_eq_plainScan (bm : Bitmap) (n : ℕ) : findRun bm n = plainScan bm n := by
  have hscan := scan_eq bm n
  unfold findRun plainScan
  generalize (List.range bitmapWords).foldlM (scanWord bm n) (0, 0) = words at hscan ⊢
  generalize (List.range vmallocPages).foldlM (scanStep (fun i => !bitmapTest bm i) n) (0, 0) = bits at hscan ⊢
  subst hscan
  cases words with
  | error start => rfl
  | ok last => rfl

/-- A run of `npages` clear bits within the zone. -/
structure FreeRun (bm : Bitmap) (npages start : ℕ) : Prop where
  bound : start + npages ≤ vmallocPages
  clear : ∀ i, start ≤ i → i < start + npages → bitmapTest bm i = false

/-- The search finds the smallest start of a run, and none where there is no run. -/
structure ExactSearch (bm : Bitmap) (npages : ℕ) : Prop where
  plain : findRun bm npages = plainScan bm npages
  found : (∃ start, findRun bm npages = some start) ↔ ∃ start, FreeRun bm npages start
  first : ∀ start, findRun bm npages = some start →
    FreeRun bm npages start ∧ ∀ start' < start, ¬FreeRun bm npages start'

theorem FreeRun.isRun {start : ℕ} (h : FreeRun bm n start) : IsRun (fun i => !bitmapTest bm i) n start := by
  intro i hlo hhi
  have hclear := h.clear i hlo hhi
  simpa using hclear

theorem FreeRun.of_isFirstRun {start : ℕ} (h : IsFirstRun (fun i => !bitmapTest bm i) n vmallocPages start) :
    FreeRun bm n start := by
  refine ⟨h.bound, fun i hlo hhi => ?_⟩
  have hfree := h.run i hlo hhi
  simpa using hfree

theorem exactSearch (bm : Bitmap) (hn : 0 < n) : ExactSearch bm n := by
  refine ⟨findRun_eq_plainScan bm n, ?_, ?_⟩
  · rcases findRun_spec bm hn with ⟨start, hfind, hfirst⟩ | ⟨hfind, hnone⟩
    · exact iff_of_true ⟨start, hfind⟩ ⟨start, .of_isFirstRun hfirst⟩
    · refine iff_of_false ?_ ?_
      · rintro ⟨start, hsome⟩
        rw [hfind] at hsome
        cases hsome
      · rintro ⟨start, hrun⟩
        exact hnone start hrun.bound hrun.isRun
  · intro start hsome
    rcases findRun_spec bm hn with ⟨start', hfind, hfirst⟩ | ⟨hfind, -⟩
    · obtain rfl : start' = start := Option.some.inj (hfind.symm.trans hsome)
      exact ⟨.of_isFirstRun hfirst, fun start' hlt hrun => hfirst.first start' hlt hrun.isRun⟩
    · rw [hfind] at hsome
      cases hsome

/-- `vbrk` returns the first page that is free. -/
theorem vbrk_spec (bm : Bitmap) :
    (∃ i < vmallocPages, bitmapTest bm i = false ∧ (∀ k < i, bitmapTest bm k = true) ∧
        vbrk bm = vmallocBase + i * pageSize) ∨
      (∀ i < vmallocPages, bitmapTest bm i = true) ∧ vbrk bm = vmallocMax := by
  have hused : ∀ i, vbrkPage bm () i = .ok () ↔ bitmapTest bm i = true := by
    intro i
    unfold vbrkPage
    cases bitmapTest bm i <;> simp
  unfold vbrk
  rcases foldlM_range (vbrkPage bm) vmallocPages with ⟨hend, hall⟩ | ⟨i, hi, addr, hbefore, hret, hend⟩
  · rw [hend]
    exact .inr ⟨fun i hi => (hused i).mp (hall i hi), rfl⟩
  · rw [hend]
    have hclear : bitmapTest bm i = false := by
      rw [← Bool.not_eq_true, ← hused i, hret]
      intro hc
      cases hc
    have haddr : addr = vmallocBase + i * pageSize := by
      unfold vbrkPage at hret
      rw [hclear] at hret
      exact (Except.error.inj hret).symm
    exact .inl ⟨i, hi, hclear, fun k hk => (hused k).mp (hbefore k hk), haddr⟩

/-- The address of what a search has found. -/
def foundAddr (other : ℕ) : Option ℕ → ℕ
  | some start => vmallocBase + start * pageSize
  | none => other

/-- The search for one page and `vbrk` agree. -/
theorem vbrk_eq (bm : Bitmap) : vbrk bm = foundAddr vmallocMax (findRun bm 1) := by
  rcases vbrk_spec bm with ⟨i, hi, hclear, hbefore, hbrk⟩ | ⟨hfull, hbrk⟩
  · have hrun : FreeRun bm 1 i := by
      refine ⟨hi, fun k hlo hhi => ?_⟩
      obtain rfl : k = i := by omega
      exact hclear
    have hexact := exactSearch bm Nat.one_pos
    obtain ⟨start, hfind⟩ := hexact.found.mpr ⟨i, hrun⟩
    obtain ⟨hfirst, hmin⟩ := hexact.first start hfind
    have hstart : start = i := by
      rcases Nat.lt_trichotomy start i with hlt | heq | hgt
      · have hset := hbefore start hlt
        rw [hfirst.clear start (le_refl _) (Nat.lt_succ_self _)] at hset
        cases hset
      · exact heq
      · exact absurd hrun (hmin i hgt)
    rw [hfind, hbrk, hstart]
    rfl
  · have hnone : findRun bm 1 = none := by
      rcases findRun_spec bm Nat.one_pos with ⟨start, -, hfirst⟩ | ⟨hfind, -⟩
      · have hfree := (FreeRun.of_isFirstRun hfirst).clear start (le_refl _) (Nat.lt_succ_self _)
        rw [hfull start hfirst.bound] at hfree
        cases hfree
      · exact hfind
    rw [hnone, hbrk]
    rfl

/-- `kmalloc` returns no null pointer for a positive size: it panics where it has no page. -/
theorem kmalloc_ne_zero {page : Bool} (hsize : size ≠ 0) (hok : Kmalloc.kmalloc page size p = .ok (c, q)) : c ≠ 0 := by
  unfold Kmalloc.kmalloc at hok
  rw [if_neg hsize] at hok
  obtain ⟨-, hok⟩ := ite_kpanic_eq_ok.mp hok
  dsimp only at hok
  split at hok
  · obtain ⟨p', hrefill, hok⟩ := bind_eq_ok.mp hok
    unfold Kmalloc.cpoolRefill at hrefill
    obtain ⟨-, hrefill⟩ := ite_kpanic_eq_ok.mp hrefill
    obtain ⟨-, hrefill⟩ := ite_kpanic_eq_ok.mp hrefill
    obtain rfl := Except.ok.inj hrefill
    obtain ⟨rfl, -⟩ := Prod.mk.inj (Except.ok.inj hok)
    simp [Pool.setFreeList, Kmalloc.cpoolHdrSize]
  · rename_i hlist
    obtain ⟨rfl, -⟩ := Prod.mk.inj (Except.ok.inj hok)
    exact hlist

/-- The node of a new region is no null pointer, and taking it leaves the bitmap alone. -/
theorem kmallocObject_node {s₁ : VmState} (hok : kmallocObject regionSize s = .ok (c, s₁)) :
    c ≠ 0 ∧ s₁.bitmap = s.bitmap := by
  unfold kmallocObject at hok
  obtain ⟨page, -, hok⟩ := bind_eq_ok.mp hok
  obtain ⟨⟨c', q⟩, hq, hok⟩ := bind_eq_ok.mp hok
  obtain ⟨rfl, rfl⟩ := Prod.mk.inj (Except.ok.inj hok)
  have hsize : regionSize ≠ 0 := by decide
  exact ⟨kmalloc_ne_zero hsize hq, rfl⟩

/-- What `vmalloc` returns is the answer of its search. -/
theorem vmalloc_returns (hn : 0 < n) (hok : vmalloc fuel n s = .ok (a, t)) : a = foundAddr 0 (findRun s.bitmap n) := by
  unfold vmalloc at hok
  rw [if_neg hn.ne'] at hok
  obtain ⟨⟨c, s₁⟩, hnode, hok⟩ := bind_eq_ok.mp hok
  obtain ⟨hc, hbitmap⟩ := kmallocObject_node hnode
  dsimp only at hok
  rw [if_neg hc, hbitmap] at hok
  cases hfind : findRun s.bitmap n with
  | some start =>
    rw [hfind] at hok
    obtain ⟨u, -, hok⟩ := bind_eq_ok.mp hok
    obtain ⟨rfl, -⟩ := Prod.mk.inj (Except.ok.inj hok)
    rfl
  | none =>
    rw [hfind] at hok
    obtain ⟨u, -, hok⟩ := bind_eq_ok.mp hok
    obtain ⟨rfl, -⟩ := Prod.mk.inj (Except.ok.inj hok)
    rfl

/-- The pages of the zone lie below its last address, and above null. -/
theorem zone_page_range {start : ℕ} (h : start < vmallocPages) :
    vmallocBase + start * pageSize ≠ 0 ∧ vmallocBase + start * pageSize ≠ vmallocMax := by
  have hpages : vmallocPages = 64512 := by decide
  simp only [vmallocBase, pageSize, vmallocMax]
  omega

/-- The page mappings that `vmalloc (1)` asks for succeed: the one for a page of the chunk pool, and
the one for its own page. -/
structure MappingsSucceed (s : VmState) : Prop where
  node : ∃ c s₁, kmallocObject regionSize s = .ok (c, s₁)
  page : ∀ c s₁, kmallocObject regionSize s = .ok (c, s₁) → ∀ j < vmallocPages, ∃ u, mapRegionPage s₁ j = .ok u

/-- `vmalloc (1)` returns where its mappings succeed. -/
theorem vmalloc_one_ends (hs : PoolShape s.pool live lists) (hp : Paging.InOrder L s.paging) (h : MappingsSucceed s) :
    ∃ bound, ∀ fuel, bound ≤ fuel → ∃ a t, vmalloc fuel 1 s = .ok (a, t) := by
  obtain ⟨c, s₁, hnode⟩ := h.node
  obtain ⟨hc, hbitmap⟩ := kmallocObject_node hnode
  cases hfind : findRun s.bitmap 1 with
  | some start =>
    have hrun := ((exactSearch s.bitmap Nat.one_pos).first start hfind).1
    obtain ⟨u, hu⟩ := h.page c s₁ hnode start hrun.bound
    refine ⟨0, fun fuel _ => ⟨vmallocBase + start * pageSize, enterRegion c start 1 u, ?_⟩⟩
    unfold vmalloc
    rw [if_neg Nat.one_ne_zero, hnode, ok_bind]
    dsimp only
    rw [if_neg hc, hbitmap, hfind]
    dsimp only
    rw [List.range'_one, List.foldlM_cons, hu]
    rfl
  | none =>
    obtain ⟨q, pg, rfl, ha, hkept⟩ := kmallocObject_ok hs hp (by decide) (by decide) hnode
    obtain ⟨lists', hs'⟩ := ha.shape
    obtain ⟨q', pg', -, -, -, bound, hbound⟩ := kfreeObject_eq (s := { s with pool := q, paging := pg }) hs'
      hkept.inOrder (Finset.mem_insert_self c live)
    refine ⟨bound, fun fuel hfuel => ⟨0, { s with pool := q', paging := pg' }, ?_⟩⟩
    unfold vmalloc
    rw [if_neg Nat.one_ne_zero, hnode, ok_bind]
    dsimp only
    rw [if_neg hc, hfind]
    dsimp only
    rw [hbound fuel hfuel]
    rfl

/-- `vbrk` tells what `vmalloc (1)` returns, and `VMALLOC_MAX` where it returns null. -/
structure VbrkPredicts (s : VmState) : Prop where
  succeeds : ∀ fuel a t, vmalloc fuel 1 s = .ok (a, t) → a ≠ 0 → vbrk s.bitmap = a
  fails : ∀ fuel a t, vmalloc fuel 1 s = .ok (a, t) → (a = 0 ↔ vbrk s.bitmap = vmallocMax)
  returns : ∀ (L : Layout) (live : Finset ℕ) (lists : ℕ → List ℕ), PoolShape s.pool live lists →
    Paging.InOrder L s.paging → MappingsSucceed s →
      ∃ bound, ∀ fuel, bound ≤ fuel → ∃ a t, vmalloc fuel 1 s = .ok (a, t)

/-- The search behind `vmalloc` is exact first fit, and its answer is what `vmalloc` returns. -/
structure FirstFitSearch (s : VmState) : Prop where
  exact : ∀ npages, 0 < npages → ExactSearch s.bitmap npages
  answer : ∀ fuel npages a t, 0 < npages → vmalloc fuel npages s = .ok (a, t) →
    a = foundAddr 0 (findRun s.bitmap npages)

theorem vmalloc_first_fit (s : VmState) : FirstFitSearch s ∧ VbrkPredicts s := by
  have hbrk := vbrk_eq s.bitmap
  have hone := exactSearch s.bitmap Nat.one_pos
  refine ⟨⟨fun n hn => exactSearch s.bitmap hn, fun fuel n a t hn hok => vmalloc_returns hn hok⟩, ?_, ?_, ?_⟩
  · intro fuel a t hok hne
    have ha := vmalloc_returns Nat.one_pos hok
    cases hfind : findRun s.bitmap 1 with
    | some start =>
      rw [hfind] at hbrk ha
      rw [hbrk, ha]
      rfl
    | none =>
      rw [hfind] at ha
      exact absurd ha hne
  · intro fuel a t hok
    have ha := vmalloc_returns Nat.one_pos hok
    cases hfind : findRun s.bitmap 1 with
    | some start =>
      have hbound : start < vmallocPages := (hone.first start hfind).1.bound
      obtain ⟨hnull, hmax⟩ := zone_page_range hbound
      rw [hfind] at hbrk ha
      rw [hbrk, ha]
      exact iff_of_false hnull hmax
    | none =>
      rw [hfind] at hbrk ha
      exact iff_of_true ha hbrk
  · intro L live lists hs hp h
    exact vmalloc_one_ends hs hp h

/-- The search of `vfree` for a page at which no region starts. -/
theorem findRegion_none (h : Chain (regionNext p) cur l) (hl : ∀ a ∈ l, p.mem a ≠ idx) (fuel : ℕ) :
    findRegion p idx fuel prev cur = if l.length < fuel then some (l.getLast?.or prev, none) else none := by
  induction l generalizing prev cur fuel with
  | nil =>
    obtain rfl : cur = none := h
    cases fuel with
    | zero => rfl
    | succ fuel =>
      rw [findRegion]
      exact (if_pos (Nat.succ_pos fuel)).symm
  | cons a l ih =>
    obtain ⟨rfl, h⟩ := h
    cases fuel with
    | zero => rfl
    | succ fuel =>
      rw [findRegion, if_neg (hl a List.mem_cons_self), ih h fun b hb => hl b (List.mem_cons_of_mem a hb)]
      have hlast : l.getLast?.or (some a) = (a :: l).getLast?.or prev := by
        rw [List.getLast?_cons]
        cases l.getLast? <;> rfl
      rw [hlast, List.length_cons]
      simp only [Nat.add_lt_add_iff_right]

/-- The addresses that `vfree` takes for pointers into the zone. -/
def InZone (addr : ℕ) : Prop := vmallocBase ≤ addr ∧ addr < vmallocMax

instance (addr : ℕ) : Decidable (InZone addr) := inferInstanceAs (Decidable (_ ∧ _))

/-- `vfree` reads nothing of an address but its page. -/
theorem vfree_congr (ha : InZone a) (hb : InZone b) (hpage : a / pageSize = b / pageSize) (fuel : ℕ) :
    vfree fuel a s = vfree fuel b s := by
  obtain ⟨ha₁, ha₂⟩ := ha
  obtain ⟨hb₁, hb₂⟩ := hb
  have hidx : (a - vmallocBase) / pageSize = (b - vmallocBase) / pageSize := by
    simp only [vmallocBase, pageSize] at ha₁ hb₁ hpage ⊢
    omega
  have hbase : 0 < vmallocBase := by decide
  unfold vfree
  rw [if_neg (by omega), if_neg (by omega), if_neg (by omega), if_neg (by omega)]
  dsimp only
  rw [hidx]

/-- The call panics, given the fuel that its search takes, and returns with no fuel. -/
structure Panics (s : VmState) (addr : ℕ) : Prop where
  never : ∀ fuel t, vfree fuel addr s ≠ .ok t
  message : ∃ bound text, ∀ fuel, bound ≤ fuel → vfree fuel addr s = .error (.kpanic text)

theorem vfree_outside (ha : a ≠ 0) (hout : ¬InZone a) : Panics s a := by
  have hpanic : ∀ fuel, vfree fuel a s = kpanic "vfree: pointer outside vmalloc zone" := by
    intro fuel
    unfold InZone at hout
    unfold vfree
    rw [if_neg ha, if_pos (by omega)]
  refine ⟨fun fuel t hok => ?_, 0, "vfree: pointer outside vmalloc zone", fun fuel _ => hpanic fuel⟩
  rw [hpanic] at hok
  cases hok

/-- No region starts at the page of the address. -/
theorem VmShape.vfree_unknown (h : VmShape L s others rs) (ha : InZone a)
    (hno : ∀ r ∈ rs, r.start ≠ (a - vmallocBase) / pageSize) : Panics s a := by
  have hnode : ∀ c ∈ rs.map Region.node, s.pool.mem c ≠ (a - vmallocBase) / pageSize := by
    intro c hc
    obtain ⟨r, hr, rfl⟩ := List.mem_map.mp hc
    rw [h.list.listed.start r hr]
    exact hno r hr
  have hvfree : ∀ fuel, Vmalloc.vfree fuel a s = if rs.length < fuel then
      kpanic "vfree: pointer not allocated by vmalloc" else .error .spin := by
    intro fuel
    obtain ⟨hlow, hhigh⟩ := ha
    have hbase : 0 < vmallocBase := by decide
    have hsearch : findRegion s.pool ((a - vmallocBase) / pageSize) fuel none (ptr s.regionList) =
        if (rs.map Region.node).length < fuel then some ((rs.map Region.node).getLast?.or none, none) else none :=
      findRegion_none h.list.listed.chain hnode fuel
    rw [List.length_map] at hsearch
    unfold Vmalloc.vfree
    rw [if_neg (by omega), if_neg (by omega)]
    dsimp only
    rw [hsearch]
    split
    · rfl
    · rfl
  refine ⟨fun fuel t hok => ?_, rs.length + 1, "vfree: pointer not allocated by vmalloc", fun fuel hfuel => ?_⟩
  · rw [hvfree] at hok
    split at hok
    · cases hok
    · cases hok
  · rw [hvfree, if_pos (Nat.lt_of_succ_le hfuel)]
    rfl

/-- `vfree` takes the address exactly if it was handed out and not freed since; otherwise it panics. -/
structure AcceptsExactly (s : VmState) (held : Finset ℕ) (addr : ℕ) : Prop where
  accepts : (∃ fuel t, vfree fuel addr s = .ok t) ↔ addr ∈ held
  panics : addr ∉ held → Panics s addr

/-- An address in the first page of a region, other than the address of the region. -/
def InFirstPage (held : Finset ℕ) (addr : ℕ) : Prop :=
  addr % pageSize ≠ 0 ∧ addr < vmallocMax ∧ addr / pageSize * pageSize ∈ held

theorem Region.addr_inZone (h : r.start < vmallocPages) : InZone r.addr := by
  have hpages : vmallocPages = 64512 := by decide
  simp only [InZone, Region.addr, vmallocBase, pageSize, vmallocMax]
  omega

/-- The address of a region is its page's. -/
theorem Region.addr_page (r : Region) : r.addr % pageSize = 0 ∧ (r.addr - vmallocBase) / pageSize = r.start := by
  simp only [Region.addr, vmallocBase, pageSize]
  omega

/-- In every state that calls of `vmalloc` and `vfree` reach, `vfree` takes the addresses handed out,
and beyond these the other addresses in the first pages of their regions. -/
theorem vfree_accepts_iff (L : Layout) (s : VmState) (held : Finset ℕ) (addr : ℕ) (h : VmRun L s held)
    (haddr : addr ≠ 0) : AcceptsExactly s held addr ↔ ¬InFirstPage held addr := by
  obtain ⟨others, rs, hshape, hheld⟩ := h.shape
  have hstart : ∀ r ∈ rs, r.start < vmallocPages := by
    intro r hr
    have hpos := hshape.pages.pos r hr
    have hbound := hshape.pages.bound r hr
    omega
  have hends : ∀ r ∈ rs, ∃ fuel t, vfree fuel r.addr s = .ok t := fun r hr => hshape.vfree_ends hr
  by_cases hmem : addr ∈ held
  · obtain ⟨r, hr, rfl⟩ := (hheld addr).mp hmem
    refine iff_of_true ⟨iff_of_true (hends r hr) hmem, fun hno => absurd hmem hno⟩ fun hfirst => ?_
    exact hfirst.1 r.addr_page.1
  · by_cases hfirst : InFirstPage held addr
    · obtain ⟨hoff, hmax, hpage⟩ := hfirst
      refine iff_of_false (fun hexact => ?_) fun hno => hno ⟨hoff, hmax, hpage⟩
      obtain ⟨r, hr, hraddr⟩ := (hheld _).mp hpage
      obtain ⟨fuel, t, hok⟩ := hends r hr
      have hzone := Region.addr_inZone (hstart r hr)
      have hin : InZone addr := by
        have hdiv := Nat.div_mul_le_self addr pageSize
        have hlow := hzone.1
        exact ⟨by omega, hmax⟩
      have hsame : addr / pageSize = r.addr / pageSize := by
        rw [← hraddr, Nat.mul_div_cancel _ (by decide)]
      rw [← vfree_congr hin hzone hsame] at hok
      exact hmem (hexact.accepts.mp ⟨fuel, t, hok⟩)
    · have hpanics : Panics s addr := by
        by_cases hin : InZone addr
        · refine hshape.vfree_unknown hin fun r hr he => ?_
          -- the page of the address would be the first of `r`
          have hraddr : addr / pageSize * pageSize = r.addr := by
            have hlow := hin.1
            simp only [Region.addr, vmallocBase, pageSize] at he hlow ⊢
            omega
          have hpage : addr / pageSize * pageSize ∈ held := (hheld _).mpr ⟨r, hr, hraddr⟩
          refine hfirst ⟨fun haligned => hmem ?_, hin.2, hpage⟩
          rw [Nat.div_mul_cancel (Nat.dvd_of_mod_eq_zero haligned)] at hpage
          exact hpage
        · exact vfree_outside haddr hin
      have hrefuses : ¬∃ fuel t, vfree fuel addr s = .ok t := by
        rintro ⟨fuel, t, hok⟩
        exact hpanics.never fuel t hok
      exact iff_of_true ⟨iff_of_false hrefuses hmem, fun _ => hpanics⟩ hfirst

/-- The first `vmalloc` after boot returns the start of the zone. -/
theorem vmBoot_first : ∃ t, vmalloc 0 1 vmBoot = .ok (vmallocBase, t) := by
  obtain ⟨a, t, hok, hne⟩ := vmBoot_vmalloc
  have ha := vmalloc_returns Nat.one_pos hok
  have hclear : ∀ i < vmallocPages, bitmapTest vmBoot.bitmap i = false := fun i hi => vmallocInit_clear _ hi
  have hpages : 0 < vmallocPages := by decide
  have hzero : FreeRun vmBoot.bitmap 1 0 := by
    refine ⟨hpages, fun i _ hhi => hclear i ?_⟩
    omega
  have hexact := exactSearch vmBoot.bitmap Nat.one_pos
  obtain ⟨start, hfind⟩ := hexact.found.mpr ⟨0, hzero⟩
  have hstart : start = 0 := by
    by_contra hs
    exact (hexact.first start hfind).2 0 (Nat.pos_of_ne_zero hs) hzero
  rw [hfind, hstart] at ha
  obtain rfl : a = vmallocBase := ha
  exact ⟨t, hok⟩

theorem vmBoot_run (hok : vmalloc fuel 1 vmBoot = .ok (vmallocBase, t)) : VmRun Paging.sampleLayout t {vmallocBase} := by
  have hnext := (VmRun.start vmBoot_start).vmalloc hok
  rw [if_neg (by decide : vmallocBase ≠ 0)] at hnext
  exact hnext

/-- After boot and one `vmalloc`: an address inside the region is taken, the next page is refused as it should be. -/
theorem vfree_accepts_interior : ∃ t, VmRun Paging.sampleLayout t {vmallocBase} ∧
    ¬AcceptsExactly t {vmallocBase} 0xF0000800 ∧ AcceptsExactly t {vmallocBase} 0xF0001000 := by
  obtain ⟨t, hok⟩ := vmBoot_first
  have hrun := vmBoot_run hok
  have hinside : InFirstPage {vmallocBase} 0xF0000800 := ⟨by decide, by decide, by decide⟩
  have hbehind : ¬InFirstPage {vmallocBase} 0xF0001000 := fun hin => hin.1 (by decide)
  refine ⟨t, hrun, fun hexact => ?_, ?_⟩
  · exact (vfree_accepts_iff Paging.sampleLayout t {vmallocBase} 0xF0000800 hrun (by decide)).mp hexact hinside
  · exact (vfree_accepts_iff Paging.sampleLayout t {vmallocBase} 0xF0001000 hrun (by decide)).mpr hbehind

/-- After boot and `vmalloc (1)`, which returns `0xF0000000`, the call `vfree (0xF0000001)` returns. -/
theorem vfree_takes_interior : ∃ t, VmRun Paging.sampleLayout t {0xF0000000} ∧
    (∃ fuel u, vfree fuel 0xF0000001 t = .ok u) ∧ ¬AcceptsExactly t {0xF0000000} 0xF0000001 := by
  obtain ⟨t, hok⟩ := vmBoot_first
  have hrun := vmBoot_run hok
  obtain ⟨others, rs, hshape, hheld⟩ := hrun.shape
  obtain ⟨r, hr, hraddr⟩ := (hheld vmallocBase).mp (Finset.mem_singleton_self _)
  obtain ⟨fuel, u, hu⟩ := hshape.vfree_ends hr
  rw [← hraddr] at hu
  have hin : InZone 0xF0000001 := by decide
  have hbase : InZone vmallocBase := by decide
  have hinterior : vfree fuel 0xF0000001 t = .ok u := by
    rw [vfree_congr hin hbase (by decide)]
    exact hu
  refine ⟨t, hrun, ⟨fuel, u, hinterior⟩, fun hexact => ?_⟩
  have hmem := hexact.accepts.mp ⟨fuel, u, hinterior⟩
  exact absurd hmem (by decide)

end HekaOS.Vmalloc
