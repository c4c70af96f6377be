import Mathlib.Algebra.BigOperators.Intervals
import Mathlib.Algebra.Order.BigOperators.Group.Finset
import HekaOS.DirectorySetup
import HekaOS.FrameEffects

/-!
# `paging_fork_copy` copies

The two loops of `paging_fork_copy`, with everything they leave behind: the child's tables and pages
read like the parent's, they are in frames that were free, and nothing else has changed. The copy
goes through when there are as many free frames as tables and pages to copy; when it
gives up, it has taken every one of them.
-/

namespace HekaOS.Paging
open MachineWord KernelMemory KernelTriples ByteMemory PageWalk WordBitmap PhysPageFrame AddressMap
open Tasks (maxProc pageSize)

variable {L : Layout} {s t u : PagingState} {T T' : Finset ℕ} {d dc f g j K n p P pdi pti q r v va : ℕ}

/-- The pages behind the first `n` entries of a table. -/
def countPresent (s : PagingState) (P n : ℕ) : ℕ := ∑ q ∈ Finset.range n, if Present (s.entry P q) then 1 else 0

/-- The frames that the copy of an entry of the directory takes. -/
def tableDemand (s : PagingState) (d p : ℕ) : ℕ :=
  if Present (s.entry d p) then 1 + countPresent s (s.entry d p / 4096) 1024 else 0

/-- The frames that the copy of the user half takes. -/
def forkDemand (s : PagingState) (d : ℕ) : ℕ := ∑ p ∈ Finset.Ico 1 768, tableDemand s d p

/-- No frame is free. -/
def Full (s : PagingState) : Prop := ∀ f < physTotalFrames, InUse s f

/-- With the first 4 MiB reserved, `phys_alloc_frame` fails only when no frame is free. -/
theorem allocFrame_split (hlow : ∀ f < reservedFrames, InUse s f) :
    Full s ∧ physAllocFrame s.bitmap = (0, s.bitmap) ∨
      ∃ g, NewFrame s.bitmap g ∧ reservedFrames ≤ g ∧ physAllocFrame s.bitmap = (g * 4096, bitmapSet s.bitmap g) := by
  rcases physAllocFrame_spec s.bitmap with ⟨g, hlt, hclear, -, hr⟩ | ⟨hfull, hr⟩
  · refine .inr ⟨g, ⟨hlt, hclear⟩, ?_, hr⟩
    by_contra hge
    exact Bool.false_ne_true (hclear.symm.trans (hlow g (Nat.not_le.mp hge)))
  · exact .inl ⟨hfull, hr⟩

/-! ### One page -/

/-- The page behind entry `q` of the child's table `r` in `t` reads like the one of the parent's table
`P` in `s`, from a frame of its own. -/
structure PageCopied (T : Finset ℕ) (s t : PagingState) (P r q : ℕ) : Prop where
  present : Present (t.entry r q) ↔ Present (s.entry P q)
  flags : Present (s.entry P q) → t.entry r q % 4096 = s.entry P q % 4096
  frame : Present (s.entry P q) → t.entry r q / 4096 ∈ T
  bytes : Present (s.entry P q) → ∀ o < 4096,
    t.mem (t.entry r q / 4096 * 4096 + o) % 256 = s.mem (s.entry P q / 4096 * 4096 + o) % 256

/-- A page stays copied while its entry and the frames taken for copies stay. -/
theorem PageCopied.later (h : PageCopied T s t P r q) (hT : T ⊆ T') (hentry : u.entry r q = t.entry r q)
    (hmem : ∀ f ∈ T, ∀ o < 4096, u.mem (f * 4096 + o) = t.mem (f * 4096 + o)) : PageCopied T' s u P r q := by
  refine ⟨?_, fun hp => ?_, fun hp => ?_, fun hp o ho => ?_⟩
  · rw [hentry]
    exact h.present
  · rw [hentry]
    exact h.flags hp
  · rw [hentry]
    exact hT (h.frame hp)
  · rw [hentry, hmem _ (h.frame hp) o ho]
    exact h.bytes hp o ho

/-- The parent may be looked at earlier. -/
theorem PageCopied.since {s' : PagingState} (h : PageCopied T s t P r q) (hentry : s.entry P q = s'.entry P q)
    (hmem : Present (s'.entry P q) → ∀ o < 4096,
      s.mem (s'.entry P q / 4096 * 4096 + o) = s'.mem (s'.entry P q / 4096 * 4096 + o)) :
    PageCopied T s' t P r q := by
  refine ⟨?_, fun hp => ?_, fun hp => ?_, fun hp o ho => ?_⟩
  · rw [← hentry]
    exact h.present
  · rw [← hentry] at hp ⊢
    exact h.flags hp
  · rw [← hentry] at hp
    exact h.frame hp
  · rw [← hmem hp o ho, ← hentry]
    rw [← hentry] at hp
    exact h.bytes hp o ho

/-- What the inner loop finds: the parent's table `P` and the child's table `r`, empty and mounted. -/
structure TableSite (d K P r pdi : ℕ) (s : PagingState) : Prop where
  bench : Bench d K s
  reserved : ∀ f < reservedFrames, InUse s f
  index : 0 < pdi ∧ pdi < 768
  pde : Present (s.entry d pdi)
  leads : s.entry d pdi / 4096 = P
  dir : InUse s d ∧ d ≠ r
  kstack : InUse s K ∧ K ≠ r
  own : InUse s r
  table : InUse s P ∧ P ≠ K ∧ P ≠ r
  page : ∀ q < 1024, Present (s.entry P q) →
    InUse s (s.entry P q / 4096) ∧ s.entry P q / 4096 ≠ K ∧ s.entry P q / 4096 ≠ r

/-- The pages behind the first `n` entries are copied. -/
structure CopiedPages (d K P r n : ℕ) (s t : PagingState) (T : Finset ℕ) : Prop where
  touched : Touched {K, r} T s t
  scratch : ScratchOnly K s t
  shows : Shows t d K forkScratchPtVa r
  count : T.card = countPresent s P n
  pages : ∀ q < n, PageCopied T s t P r q
  rest : ∀ q, n ≤ q → q < 1024 → t.entry r q = 0

/-- A loop that gave up has taken all frames, fewer than `demand`. -/
structure GaveUp (W : Set ℕ) (K demand : ℕ) (s t : PagingState) (T : Finset ℕ) : Prop where
  touched : Touched W T s t
  scratch : ScratchOnly K s t
  full : Full t
  short : T.card < demand

theorem src_index (hpdi : pdi < 1024) (hpti : pti < 1024) :
    pdIndex ((pdi <<< 22) ||| (pti <<< 12)) = pdi ∧ ptIndex ((pdi <<< 22) ||| (pti <<< 12)) = pti ∧
      ((pdi <<< 22) ||| (pti <<< 12)) % 4096 = 0 ∧ ((pdi <<< 22) ||| (pti <<< 12)) < wordSize := by
  have hsum : (pdi <<< 22) ||| (pti <<< 12) = pdi * 2 ^ 22 + pti * 2 ^ 12 := by
    rw [Nat.shiftLeft_eq, Nat.shiftLeft_eq]
    exact or_low (k := 22) (by omega)
  rw [hsum]
  unfold pdIndex ptIndex
  simp only [wordSize]
  omega

/-- A new frame with the flags of an entry. -/
theorem flags_or (g e : ℕ) : (g * 4096 ||| (e &&& 0xFFF)) % 4096 = e % 4096 := by
  have hsum : g * 4096 ||| e % 4096 = g * 4096 + e % 4096 := or_low (k := 12) (Nat.mod_lt _ (by decide))
  rw [and_offset, hsum]
  omega

theorem countPresent_succ (s : PagingState) (P n : ℕ) :
    countPresent s P (n + 1) = countPresent s P n + if Present (s.entry P n) then 1 else 0 :=
  Finset.sum_range_succ _ _

theorem countPresent_congr (h : ∀ q < n, t.entry P q = s.entry P q) : countPresent t P n = countPresent s P n := by
  apply Finset.sum_congr rfl
  intro q hq
  rw [h q (Finset.mem_range.mp hq)]

theorem countPresent_lt (hn : n < 1024) (hpresent : Present (s.entry P n)) :
    countPresent s P n < countPresent s P 1024 := by
  have hsucc := countPresent_succ s P n
  rw [if_pos hpresent] at hsucc
  have hmono : countPresent s P (n + 1) ≤ countPresent s P 1024 :=
    Finset.sum_le_sum_of_subset (Finset.range_mono (by omega))
  omega

namespace TableSite

theorem dir_out (hs : TableSite d K P r pdi s) : d ∉ ({K, r} : Set ℕ) := by
  rintro (rfl | rfl)
  · exact hs.bench.apart rfl
  · exact hs.dir.2 rfl

theorem table_out (hs : TableSite d K P r pdi s) : P ∉ ({K, r} : Set ℕ) := by
  rintro (rfl | rfl)
  · exact hs.table.2.1 rfl
  · exact hs.table.2.2 rfl

/-- What the round reads from the parent. -/
theorem read_pte (hs : TableSite d K P r pdi s) (ht : Touched {K, r} T s t) (hq : q < 1024) :
    Shows t d d (getPt pdi) P ∧ t.read (getPt pdi + 4 * q) = .ok (s.entry P q) := by
  have hbench := hs.bench.touched ht hs.dir.1 hs.dir_out
  have hpdi : pdi < 1024 := by
    have := hs.index.2
    omega
  have hpde : t.entry d pdi = s.entry d pdi := ht.entry hs.dir.1 hs.dir_out hpdi
  have hshows := hbench.window.shows_pt hpdi (by rw [hpde]; exact hs.pde)
  rw [hpde, hs.leads] at hshows
  refine ⟨hshows, ?_⟩
  rw [hshows.read_eq hq, ht.entry hs.table.1 hs.table_out hq]

/-- The parent's page is mapped where the loop reads it. -/
theorem shows_src (hs : TableSite d K P r pdi s) (ht : Touched {K, r} T s t) (hq : q < 1024)
    (hpresent : Present (s.entry P q)) :
    Shows t d P ((pdi <<< 22) ||| (q <<< 12)) (s.entry P q / 4096) := by
  have hpdi : pdi < 1024 := by
    have := hs.index.2
    omega
  obtain ⟨hpd, hpt, haligned, hword⟩ := src_index hpdi hq
  have hpde : t.entry d pdi = s.entry d pdi := ht.entry hs.dir.1 hs.dir_out hpdi
  have hpte : t.entry P q = s.entry P q := ht.entry hs.table.1 hs.table_out hq
  refine ⟨(hs.bench.touched ht hs.dir.1 hs.dir_out).window.cr3, haligned, hword, ?_, ?_, ?_, ?_⟩
  · rw [hpd, hpde]
    exact hs.pde
  · rw [hpd, hpde]
    exact hs.leads
  · rw [hpt, hpte]
    exact hpresent
  · rw [hpt, hpte]

end TableSite

/-- The new frame `g` holds a copy of the parent's page, and the child's table leads to it. -/
structure PageTaken (K r n g : ℕ) (e : ℕ) (page : ℕ) (t u : PagingState) : Prop where
  touched : Touched {K, r} {g} t u
  scratch : ScratchOnly K t u
  entry : u.entry r n = g * 4096 ||| (e &&& 0xFFF)
  others : ∀ q < 1024, q ≠ n → u.entry r q = t.entry r q
  bytes : ∀ o < 4096, u.mem (g * 4096 + o) = t.mem (page * 4096 + o) % 256

theorem Touched.ne_new (h : Touched {K, r} T s t) (hf : InUse s f) (hg : NewFrame t.bitmap g) : f ≠ g := by
  rintro rfl
  exact Bool.false_ne_true (hg.clear.symm.trans (h.inUse hf))

theorem TableSite.takePage (hs : TableSite d K P r pdi s) (ht : Touched {K, r} T s t)
    (hshows : Shows t d K forkScratchPtVa r) (hn : n < 1024) (hpresent : Present (s.entry P n))
    (hg : NewFrame t.bitmap g) :
    Returns (do
      let t ← mapPage (g * 4096) forkScratchDataVa (pagePresent ||| pageRw) { t with bitmap := bitmapSet t.bitmap g }
      let t ← copyPage ((pdi <<< 22) ||| (n <<< 12)) forkScratchDataVa t
      let t ← t.write (forkScratchPtVa + 4 * n) (g * 4096 ||| (s.entry P n &&& 0xFFF))
      .ok (true, t)) fun a => a.1 = true ∧ PageTaken K r n g (s.entry P n) (s.entry P n / 4096) t a.2 ∧
        Shows a.2 d K forkScratchPtVa r := by
  obtain ⟨hpage, hpageK, hpager⟩ := hs.page n hn hpresent
  have hdg := ht.ne_new hs.dir.1 hg
  have hKg := ht.ne_new hs.kstack.1 hg
  have hrg := ht.ne_new hs.own hg
  have hPg := ht.ne_new hs.table.1 hg
  have hpg := ht.ne_new hpage hg
  have hglt : g < 2 ^ 20 := hg.lt.trans (by decide)
  -- the frame is taken and mounted
  have htake := Touched.take hg
  have hbench := hs.bench.touched ht hs.dir.1 hs.dir_out
  have hbench₁ : Bench d K { t with bitmap := bitmapSet t.bitmap g } := hbench.congr rfl fun _ _ => rfl
  refine (hbench₁.mount_touched (.inr rfl) g _).bind fun t₂ h₂ => ?_
  obtain ⟨hmount, hdata⟩ := h₂
  have hsrc : Shows t₂ d P ((pdi <<< 22) ||| (n <<< 12)) (s.entry P n / 4096) := by
    have hsrc := hs.shows_src ht hn hpresent
    have hsrc₁ : Shows { t with bitmap := bitmapSet t.bitmap g } d P ((pdi <<< 22) ||| (n <<< 12))
        (s.entry P n / 4096) := hsrc.congr rfl rfl rfl
    exact hsrc₁.within hmount.within hs.bench.apart.symm hs.table.2.1
  have hshows₂ : Shows t₂ d K forkScratchPtVa r := by
    have hshows₁ : Shows { t with bitmap := bitmapSet t.bitmap g } d K forkScratchPtVa r := hshows.congr rfl rfl rfl
    refine hshows₁.congr hmount.within.cr3 ?_ ?_
    · exact hmount.within.entry hs.bench.apart.symm (by decide)
    · exact hmount.other _ (by decide) (by decide)
  -- the page is copied
  refine (copyPage_returns hsrc (hdata hglt) hdg hPg hKg hpg).bind fun t₃ h₃ => ?_
  obtain ⟨hcopy, hbytes⟩ := h₃
  have hshows₃ := hshows₂.within hcopy hdg hKg
  -- and entered
  rw [hshows₃.write_eq hn, ok_bind]
  have hpoints := points_flags hglt hpresent
  have hset : Within r t₃ (t₃.setEntry r n (g * 4096 ||| (s.entry P n &&& 0xFFF))) := within_setEntry hn
  refine returns_ok ⟨rfl, ⟨?_, ?_, ?_, ?_, ?_⟩, hshows₃.within hset hs.dir.2 hs.kstack.2⟩
  · have hstep : Touched {K, r} {g} t { t with bitmap := bitmapSet t.bitmap g } :=
      ⟨htake.cr3, htake.bitmap, htake.fresh, fun a ha _ => htake.kept a ha (Set.notMem_empty _)⟩
    have hstep₂ := hstep.and_then (Touched.of_within hmount.within) (by simp)
    have hstep₃ := hstep₂.and_then (Touched.of_within hcopy) (by simp)
    exact hstep₃.and_then (Touched.of_within hset) (by simp)
  · have hstep : ScratchOnly K t t₂ := by
      have hmounted : ScratchOnly K { t with bitmap := bitmapSet t.bitmap g } t₂ := .remounted (.inr rfl) hmount
      exact hmounted
    exact (hstep.trans (.of_within hcopy hKg)).trans (.of_within hset hs.kstack.2)
  · exact PagingState.entry_setEntry_self hpoints.word
  · intro q hq hqn
    have hmounted : t₂.entry r q = t.entry r q := hmount.within.entry hs.kstack.2.symm hq
    rw [PagingState.entry_setEntry_of_ne hn hq fun he => hqn he.2, hcopy.entry hrg hq, hmounted]
  · intro o ho
    have hout : (g * 4096 + o) / 4096 ≠ r := by
      have hdiv : (g * 4096 + o) / 4096 = g := by omega
      rw [hdiv]
      exact hrg.symm
    have hmounted : t₂.mem (s.entry P n / 4096 * 4096 + o) = t.mem (s.entry P n / 4096 * 4096 + o) := by
      apply hmount.within.mem
      have hdiv : (s.entry P n / 4096 * 4096 + o) / 4096 = s.entry P n / 4096 := by omega
      rw [hdiv]
      exact hpageK
    rw [hset.mem _ hout, hbytes o ho, hmounted]

/-- A copied page joins those before it. -/
theorem CopiedPages.snoc (hs : TableSite d K P r pdi s) (h : CopiedPages d K P r n s t T) (hn : n < 1024)
    (hpresent : Present (s.entry P n)) (hg : NewFrame t.bitmap g)
    (hu : PageTaken K r n g (s.entry P n) (s.entry P n / 4096) t u) (hshows : Shows u d K forkScratchPtVa r) :
    CopiedPages d K P r (n + 1) s u (T ∪ {g}) := by
  have hglt : g < 2 ^ 20 := hg.lt.trans (by decide)
  have hpoints := points_flags hglt hpresent
  obtain ⟨hpage, hpageK, hpager⟩ := hs.page n hn hpresent
  have hnew := (h.touched.newFrame hg).2
  refine ⟨h.touched.trans hu.touched fun f hf => .inl hf, h.scratch.trans hu.scratch, hshows, ?_, fun q hq => ?_,
    fun q hq hq' => ?_⟩
  · rw [Finset.union_singleton, Finset.card_insert_of_notMem hnew, h.count, countPresent_succ, if_pos hpresent]
  · by_cases hlast : q = n
    · subst hlast
      rw [← hu.entry] at hpoints
      refine ⟨iff_of_true hpoints.present hpresent, fun _ => ?_, fun _ => ?_, fun _ o ho => ?_⟩
      · rw [hu.entry, flags_or]
      · rw [hpoints.frame]
        simp
      · have hkept : t.mem (s.entry P q / 4096 * 4096 + o) = s.mem (s.entry P q / 4096 * 4096 + o) := by
          have hdiv : (s.entry P q / 4096 * 4096 + o) / 4096 = s.entry P q / 4096 := by omega
          apply h.touched.kept
          · rw [hdiv]
            exact hpage
          · rw [hdiv]
            simp only [Set.mem_insert_iff, Set.mem_singleton_iff, not_or]
            exact ⟨hpageK, hpager⟩
        rw [hpoints.frame, hu.bytes o ho, hkept, Nat.mod_mod]
    · refine (h.pages q (by omega)).later Finset.subset_union_left (hu.others q (by omega) hlast) ?_
      intro f hf o ho
      have hdiv : (f * 4096 + o) / 4096 = f := by omega
      apply hu.touched.kept
      · rw [hdiv]
        exact h.touched.inUse_of_mem hf
      · rw [hdiv]
        rintro (rfl | rfl)
        · exact h.touched.not_mem hs.kstack.1 hf
        · exact h.touched.not_mem hs.own hf
  · rw [hu.others q hq' (by omega)]
    exact h.rest q (by omega) hq'

/-- A round of the inner loop. -/
theorem forkPte_returns (hs : TableSite d K P r pdi s) (h : CopiedPages d K P r n s t T) (hn : n < 1024) :
    Returns (forkPte pdi t n) fun a => if a.1 then ∃ T', CopiedPages d K P r (n + 1) s a.2 T'
      else ∃ T', GaveUp {K, r} K (countPresent s P 1024) s a.2 T' := by
  have hbench := hs.bench.touched h.touched hs.dir.1 hs.dir_out
  unfold forkPte
  rw [(hs.read_pte h.touched hn).2, ok_bind]
  by_cases hpresent : Present (s.entry P n)
  · rw [if_neg (mt present_iff.mp (not_not.mpr hpresent))]
    dsimp only
    rcases allocFrame_split fun f hf => h.touched.inUse (hs.reserved f hf) with ⟨hfull, hr⟩ | ⟨g, hg, hlow, hr⟩
    · rw [hr, if_pos rfl]
      refine (hbench.unmount_touched (.inl rfl)).bind fun t' ht' => ?_
      obtain ⟨hremount, -⟩ := ht'
      have hstep := h.touched.and_then (Touched.of_within hremount.within) (by simp)
      refine returns_ok ⟨T, hstep, h.scratch.trans (.remounted (.inl rfl) hremount), ?_, ?_⟩
      · intro f hf
        unfold InUse
        rw [hremount.within.bitmap]
        exact hfull f hf
      · rw [h.count]
        exact countPresent_lt hn hpresent
    · rw [hr, if_neg (frame_ne_zero hlow)]
      refine (hs.takePage h.touched h.shows hn hpresent hg).mono fun a ha => ?_
      obtain ⟨hok, htaken, hshows⟩ := ha
      rw [if_pos hok]
      exact ⟨_, h.snoc hs hn hpresent hg htaken hshows⟩
  · rw [if_pos (present_iff.mpr hpresent)]
    refine returns_ok ⟨T, h.touched, h.scratch, h.shows, ?_, fun q hq => ?_, fun q hq hq' => h.rest q (by omega) hq'⟩
    · rw [h.count, countPresent_succ, if_neg hpresent, Nat.add_zero]
    · by_cases hlast : q = n
      · subst hlast
        have hzero := h.rest q (le_refl q) hn
        refine ⟨iff_of_false ?_ hpresent, fun hp => absurd hp hpresent, fun hp => absurd hp hpresent,
          fun hp => absurd hp hpresent⟩
        rw [hzero]
        decide
      · exact h.pages q (by omega)

/-- The inner loop. -/
theorem forkPtes_return (hs : TableSite d K P r pdi s) (hshows : Shows s d K forkScratchPtVa r)
    (hempty : ∀ q < 1024, s.entry r q = 0) :
    Returns (tryEach (forkPte pdi) (List.range 1024) s) fun a =>
      if a.1 then ∃ T, CopiedPages d K P r 1024 s a.2 T
      else ∃ T, GaveUp {K, r} K (countPresent s P 1024) s a.2 T := by
  rw [List.range_eq_range']
  refine returns_tryEach_range' (I := fun n t => ∃ T, CopiedPages d K P r n s t T)
    (J := fun t => ∃ T, GaveUp {K, r} K (countPresent s P 1024) s t T) (fun n _ hn t ht => ?_) ?_
  · obtain ⟨T, ht⟩ := ht
    exact forkPte_returns hs ht (by omega)
  · exact ⟨∅, .refl _ s, .refl K s, hshows, rfl, fun q hq => absurd hq (Nat.not_lt_zero q),
      fun q _ hq => hempty q hq⟩

/-! ### One page table -/

/-- The frame is in use, and none of the two that the copy stores to. -/
structure Aside (dc K : ℕ) (s : PagingState) (f : ℕ) : Prop where
  inUse : InUse s f
  ne_child : f ≠ dc
  ne_kstack : f ≠ K

theorem Aside.out (h : Aside dc K s f) : f ∉ ({K, dc} : Set ℕ) := by
  rintro (rfl | rfl)
  · exact h.ne_kstack rfl
  · exact h.ne_child rfl

/-- What `paging_fork_copy` finds: the parent's directory `d` is current, the child's is in frame `dc`. -/
structure Site (d dc K : ℕ) (s : PagingState) : Prop where
  bench : Bench d K s
  reserved : ∀ f < reservedFrames, InUse s f
  dir : Aside dc K s d
  child : InUse s dc ∧ dc ≠ K
  kstack : InUse s K
  table : ∀ p, 0 < p → p < 768 → Present (s.entry d p) → Aside dc K s (s.entry d p / 4096)
  page : ∀ p, 0 < p → p < 768 → Present (s.entry d p) → ∀ q < 1024, Present (s.entry (s.entry d p / 4096) q) →
    Aside dc K s (s.entry (s.entry d p / 4096) q / 4096)

theorem Aside.touched (h : Aside dc K s f) (ht : Touched {K, dc} T s t) : Aside dc K t f :=
  ⟨ht.inUse h.inUse, h.ne_child, h.ne_kstack⟩

theorem Site.touched (h : Site d dc K s) (ht : Touched {K, dc} T s t) : Site d dc K t := by
  have hdir : ∀ p < 1024, t.entry d p = s.entry d p := fun p hp => ht.entry h.dir.inUse h.dir.out hp
  refine ⟨h.bench.touched ht h.dir.inUse h.dir.out, fun f hf => ht.inUse (h.reserved f hf), h.dir.touched ht,
    ⟨ht.inUse h.child.1, h.child.2⟩, ht.inUse h.kstack, fun p hp hp' hpresent => ?_,
    fun p hp hp' hpresent q hq hpte => ?_⟩
  · rw [hdir p (by omega)] at hpresent ⊢
    exact (h.table p hp hp' hpresent).touched ht
  · rw [hdir p (by omega)] at hpresent hpte ⊢
    have htable := h.table p hp hp' hpresent
    rw [ht.entry htable.inUse htable.out hq] at hpte ⊢
    exact (h.page p hp hp' hpresent q hq hpte).touched ht

/-- The child's table at index `p` and its pages read like the parent's. -/
structure TableCopied (T : Finset ℕ) (s t : PagingState) (d dc p : ℕ) : Prop where
  present : Present (t.entry dc p) ↔ Present (s.entry d p)
  flags : Present (s.entry d p) → t.entry dc p % 4096 = s.entry d p % 4096
  frame : Present (s.entry d p) → t.entry dc p / 4096 ∈ T
  pages : Present (s.entry d p) → ∀ q < 1024, PageCopied T s t (s.entry d p / 4096) (t.entry dc p / 4096) q

theorem TableCopied.absent (h : ¬Present (s.entry d p)) (h' : ¬Present (t.entry dc p)) : TableCopied T s t d dc p :=
  ⟨iff_of_false h' h, fun hp => absurd hp h, fun hp => absurd hp h, fun hp => absurd hp h⟩

/-- What a round of the outer loop has done. -/
structure TableTaken (d dc K p : ℕ) (t u : PagingState) (T : Finset ℕ) : Prop where
  touched : Touched {K, dc} T t u
  scratch : ScratchOnly K t u
  count : T.card = tableDemand t d p
  copied : TableCopied T t u d dc p
  others : ∀ i < 1024, i ≠ p → u.entry dc i = t.entry dc i

/-- The new table is mounted, cleared and entered in the child's directory. -/
theorem Site.enterTable (h : Site d dc K s) (hp : 0 < p) (hp' : p < 768) (hpresent : Present (s.entry d p))
    (hg : NewFrame s.bitmap g) :
    Returns (mapPage (g * 4096) forkScratchPtVa (pagePresent ||| pageRw) { s with bitmap := bitmapSet s.bitmap g } >>=
        zeroTable forkScratchPtVa) fun t =>
      let u := t.setEntry dc p (g * 4096 ||| (s.entry d p &&& 0xFFF))
      Touched {K, dc} {g} s u ∧ ScratchOnly K s u ∧ TableSite d K (s.entry d p / 4096) g p u ∧
        Shows u d K forkScratchPtVa g ∧ (∀ q < 1024, u.entry g q = 0) ∧
        u.entry dc p = g * 4096 ||| (s.entry d p &&& 0xFFF) ∧ ∀ i < 1024, i ≠ p → u.entry dc i = s.entry dc i := by
  have hne : ∀ f, InUse s f → f ≠ g := by
    rintro f hf rfl
    exact Bool.false_ne_true (hg.clear.symm.trans hf)
  have hdg := hne d h.dir.inUse
  have hKg := hne K h.kstack
  have hcg := hne dc h.child.1
  have hglt : g < 2 ^ 20 := hg.lt.trans (by decide)
  have hpoints := points_flags hglt hpresent
  have hbench₁ : Bench d K { s with bitmap := bitmapSet s.bitmap g } := h.bench.congr rfl fun _ _ => rfl
  refine (hbench₁.mount_touched (.inl rfl) g _).bind fun t ht => ?_
  obtain ⟨hmount, hshows⟩ := ht
  rw [(hshows hglt).zeroTable_eq hdg hKg]
  have hclear : Within g t (t.clearTable g) := within_clearTable
  have hshows₃ := (hshows hglt).within hclear hdg hKg
  generalize htable : t.clearTable g = t₃ at hclear hshows₃
  refine returns_ok ?_
  dsimp only
  generalize hu : t₃.setEntry dc p (g * 4096 ||| (s.entry d p &&& 0xFFF)) = u
  have hset : Within dc t₃ u := hu ▸ within_setEntry (by omega)
  have hstep : Touched {K, dc} {g} s u := by
    have htake := Touched.take hg
    have h₁ : Touched {K, dc} {g} s { s with bitmap := bitmapSet s.bitmap g } :=
      ⟨htake.cr3, htake.bitmap, htake.fresh, fun a ha _ => htake.kept a ha (Set.notMem_empty _)⟩
    have h₂ := h₁.and_then (Touched.of_within hmount.within) (by simp)
    have h₃ := h₂.and_then (Touched.of_within hclear) (by simp)
    exact h₃.and_then (Touched.of_within hset) (by simp)
  have hsite := h.touched hstep
  have hd := hstep.entry h.dir.inUse h.dir.out (by omega : p < 1024)
  have htableAside := h.table p hp hp' hpresent
  refine ⟨hstep, ?_, ?_, ?_, ?_, ?_, ?_⟩
  · have hmounted : ScratchOnly K s t := fun j hj h₁ h₂ => ScratchOnly.remounted (.inl rfl) hmount j hj h₁ h₂
    exact (hmounted.trans (.of_within hclear hKg)).trans (.of_within hset h.child.2.symm)
  · refine ⟨hsite.bench, hsite.reserved, ⟨hp, hp'⟩, ?_, ?_, ⟨hsite.dir.inUse, hdg⟩, ⟨hsite.kstack, hKg⟩,
      hstep.inUse_of_mem (Finset.mem_singleton_self g), ?_, fun q hq hpte => ?_⟩
    · rw [hd]
      exact hpresent
    · rw [hd]
    · exact ⟨hstep.inUse htableAside.inUse, htableAside.ne_kstack, hne _ htableAside.inUse⟩
    · have hentry := hstep.entry htableAside.inUse htableAside.out hq
      rw [hentry] at hpte ⊢
      have hpage := h.page p hp hp' hpresent q hq hpte
      exact ⟨hstep.inUse hpage.inUse, hpage.ne_kstack, hne _ hpage.inUse⟩
  · exact hshows₃.within hset h.dir.ne_child h.child.2.symm
  · intro q hq
    rw [hset.entry hcg.symm hq, ← htable]
    exact entry_clearTable hq
  · rw [← hu]
    exact PagingState.entry_setEntry_self hpoints.word
  · intro i hi hip
    rw [← hu, PagingState.entry_setEntry_of_ne (by omega) hi fun he => hip he.2, hclear.entry hcg hi]
    exact hmount.within.entry h.child.2 hi

/-- A round of the outer loop. -/
theorem forkPde_returns {child : ℕ} (h : Site d (L.dir child) K s) (hp : 0 < p) (hp' : p < 768)
    (hchild : ¬Present (s.entry (L.dir child) p)) :
    Returns (forkPde L child s p) fun a => if a.1 then ∃ T, TableTaken d (L.dir child) K p s a.2 T
      else ∃ T, GaveUp {K, L.dir child} K (tableDemand s d p) s a.2 T := by
  unfold forkPde
  rw [h.bench.window.read_pde (by omega), ok_bind]
  by_cases hpresent : Present (s.entry d p)
  · have hdemand : tableDemand s d p = 1 + countPresent s (s.entry d p / 4096) 1024 := if_pos hpresent
    rw [if_neg (mt present_iff.mp (not_not.mpr hpresent))]
    dsimp only
    rcases allocFrame_split h.reserved with ⟨hfull, hr⟩ | ⟨g, hg, hlow, hr⟩
    · rw [hr, if_pos rfl]
      refine returns_ok ⟨∅, .refl _ s, .refl K s, hfull, ?_⟩
      rw [hdemand, Finset.card_empty]
      omega
    · rw [hr, if_neg (frame_ne_zero hlow), ← bind_assoc]
      refine (h.enterTable hp hp' hpresent hg).bind fun t ht => ?_
      obtain ⟨hstep, hscratch, htable, hshows, hempty, hself, hothers⟩ := ht
      rw [setWord_dir]
      generalize t.setEntry (L.dir child) p (g * 4096 ||| (s.entry d p &&& 0xFFF)) = u at *
      have haside := h.table p hp hp' hpresent
      have hcount : countPresent u (s.entry d p / 4096) 1024 = countPresent s (s.entry d p / 4096) 1024 :=
        countPresent_congr fun q hq => hstep.entry haside.inUse haside.out hq
      have hgW : ∀ f ∈ ({K, g} : Set ℕ), f ∈ ({K, L.dir child} : Set ℕ) ∨ f ∈ ({g} : Finset ℕ) := by simp
      refine (forkPtes_return htable hshows hempty).mono fun a ha => ?_
      obtain ⟨ok, w⟩ := a
      cases ok with
      | false =>
        obtain ⟨T, hgave⟩ := ha
        refine ⟨{g} ∪ T, hstep.trans hgave.touched hgW, hscratch.trans hgave.scratch, hgave.full, ?_⟩
        have hshort := hgave.short
        rw [Finset.card_union_of_disjoint (hstep.disjoint hgave.touched), Finset.card_singleton, hdemand]
        omega
      | true =>
        obtain ⟨T, hcopied⟩ := ha
        have hchildK : L.dir child ∉ ({K, g} : Set ℕ) := by
          rintro (he | he)
          · exact h.child.2 he
          · exact Bool.false_ne_true (hg.clear.symm.trans (he ▸ h.child.1))
        have hchildUse := hstep.inUse h.child.1
        have hdir := fun i hi => hcopied.touched.entry hchildUse hchildK (j := i) hi
        have hpoints := points_flags (hg.lt.trans (by decide) : g < 2 ^ 20) hpresent
        have hentry : w.entry (L.dir child) p = g * 4096 ||| (s.entry d p &&& 0xFFF) := by
          rw [hdir p (by omega), hself]
        refine ⟨{g} ∪ T, hstep.trans hcopied.touched hgW, hscratch.trans hcopied.scratch, ?_, ?_, ?_⟩
        · rw [Finset.card_union_of_disjoint (hstep.disjoint hcopied.touched), Finset.card_singleton, hcopied.count,
            hcount, hdemand]
        · rw [← hentry] at hpoints
          refine ⟨iff_of_true hpoints.present hpresent, fun _ => ?_, fun _ => ?_, fun _ q hq => ?_⟩
          · rw [hentry, flags_or]
          · rw [hpoints.frame]
            simp
          · rw [hpoints.frame]
            have hpage := hcopied.pages q hq
            refine PageCopied.later (hpage.since (hstep.entry haside.inUse haside.out hq) fun hpte o ho => ?_)
              Finset.subset_union_right rfl fun _ _ _ _ => rfl
            have hpageAside := h.page p hp hp' hpresent q hq hpte
            have hdiv : (s.entry (s.entry d p / 4096) q / 4096 * 4096 + o) / 4096 =
                s.entry (s.entry d p / 4096) q / 4096 := by omega
            apply hstep.kept
            · rw [hdiv]
              exact hpageAside.inUse
            · rw [hdiv]
              exact hpageAside.out
        · intro i hi hip
          rw [hdir i hi, hothers i hi hip]
  · rw [if_pos (present_iff.mpr hpresent)]
    refine returns_ok ⟨∅, .refl _ s, .refl K s, ?_, .absent hpresent hchild, fun _ _ _ => rfl⟩
    exact (if_neg hpresent).symm

/-! ### The user half -/

/-- The tables at the indices from 1 up to `n` are copied. -/
structure CopiedTables (d dc K n : ℕ) (s t : PagingState) (T : Finset ℕ) : Prop where
  touched : Touched {K, dc} T s t
  scratch : ScratchOnly K s t
  count : T.card = ∑ p ∈ Finset.Ico 1 n, tableDemand s d p
  tables : ∀ p, 0 < p → p < n → TableCopied T s t d dc p
  others : ∀ i < 1024, i < 1 ∨ n ≤ i → t.entry dc i = s.entry dc i

theorem tableDemand_touched (h : Site d dc K s) (ht : Touched {K, dc} T s t) (hp : 0 < p) (hp' : p < 768) :
    tableDemand t d p = tableDemand s d p := by
  have hdir := ht.entry h.dir.inUse h.dir.out (by omega : p < 1024)
  unfold tableDemand
  rw [hdir]
  by_cases hpresent : Present (s.entry d p)
  · have haside := h.table p hp hp' hpresent
    rw [if_pos hpresent, if_pos hpresent, countPresent_congr fun q hq => ht.entry haside.inUse haside.out hq]
  · rw [if_neg hpresent, if_neg hpresent]

theorem CopiedTables.snoc (h : Site d dc K s) (ht : CopiedTables d dc K n s t T) (hn : 0 < n) (hn' : n < 768)
    (hu : TableTaken d dc K n t u T') : CopiedTables d dc K (n + 1) s u (T ∪ T') := by
  have hout : ∀ f ∈ T, f ∉ ({K, dc} : Set ℕ) := by
    rintro f hf (rfl | rfl)
    · exact ht.touched.not_mem h.kstack hf
    · exact ht.touched.not_mem h.child.1 hf
  have hdir : t.entry d n = s.entry d n := ht.touched.entry h.dir.inUse h.dir.out (by omega)
  refine ⟨ht.touched.trans hu.touched fun f hf => .inl hf, ht.scratch.trans hu.scratch, ?_, fun p hp hpn => ?_,
    fun i hi hin => ?_⟩
  · rw [Finset.card_union_of_disjoint (ht.touched.disjoint hu.touched), ht.count, hu.count,
      tableDemand_touched h ht.touched hn hn', Finset.sum_Ico_succ_top hn]
  · by_cases hlast : p = n
    · -- the table of this round; the parent is as it was at the start
      subst hlast
      have hcopied := hu.copied
      refine ⟨?_, fun hpresent => ?_, fun hpresent => ?_, fun hpresent q hq => ?_⟩
      · rw [hcopied.present, hdir]
      · rw [hcopied.flags (by rw [hdir]; exact hpresent), hdir]
      · exact Finset.mem_union_right _ (hcopied.frame (by rw [hdir]; exact hpresent))
      · have htable := h.table p hp hn' hpresent
        have hpage := hcopied.pages (by rw [hdir]; exact hpresent) q hq
        rw [hdir] at hpage
        refine PageCopied.later (hpage.since (ht.touched.entry htable.inUse htable.out hq) fun hpte o ho => ?_)
          Finset.subset_union_right rfl fun _ _ _ _ => rfl
        have haside := h.page p hp hn' hpresent q hq hpte
        have hdiv : (s.entry (s.entry d p / 4096) q / 4096 * 4096 + o) / 4096 =
            s.entry (s.entry d p / 4096) q / 4096 := by omega
        apply ht.touched.kept
        · rw [hdiv]
          exact haside.inUse
        · rw [hdiv]
          exact haside.out
    · -- an earlier one, in frames that this round leaves alone
      have hcopied := ht.tables p hp (by omega)
      have hentry : u.entry dc p = t.entry dc p := hu.others p (by omega) hlast
      refine ⟨?_, fun hpresent => ?_, fun hpresent => ?_, fun hpresent q hq => ?_⟩
      · rw [hentry, hcopied.present]
      · rw [hentry, hcopied.flags hpresent]
      · rw [hentry]
        exact Finset.mem_union_left _ (hcopied.frame hpresent)
      · rw [hentry]
        have hframe := hcopied.frame hpresent
        refine (hcopied.pages hpresent q hq).later Finset.subset_union_left ?_ fun f hf o ho => ?_
        · exact hu.touched.entry (ht.touched.inUse_of_mem hframe) (hout _ hframe) hq
        · have hdiv : (f * 4096 + o) / 4096 = f := by omega
          apply hu.touched.kept
          · rw [hdiv]
            exact ht.touched.inUse_of_mem hf
          · rw [hdiv]
            exact hout f hf
  · rw [hu.others i hi (by omega), ht.others i hi (by omega)]

theorem forkPdes_return {child : ℕ} (h : Site d (L.dir child) K s)
    (hchild : ∀ p, 0 < p → p < 768 → ¬Present (s.entry (L.dir child) p)) :
    Returns (tryEach (forkPde L child) (List.range' 1 767) s) fun a =>
      if a.1 then ∃ T, CopiedTables d (L.dir child) K 768 s a.2 T
      else ∃ T, GaveUp {K, L.dir child} K (forkDemand s d) s a.2 T := by
  refine returns_tryEach_range' (I := fun n t => ∃ T, CopiedTables d (L.dir child) K n s t T)
    (J := fun t => ∃ T, GaveUp {K, L.dir child} K (forkDemand s d) s t T) (fun n hn hn' t ht => ?_) ?_
  · obtain ⟨T, ht⟩ := ht
    have hsite := h.touched ht.touched
    have habsent : ¬Present (t.entry (L.dir child) n) := by
      rw [ht.others n (by omega) (.inr (le_refl n))]
      exact hchild n (by omega) (by omega)
    refine (forkPde_returns hsite (by omega) (by omega) habsent).mono fun a ha => ?_
    obtain ⟨ok, u⟩ := a
    cases ok with
    | true =>
      obtain ⟨T', hu⟩ := ha
      exact ⟨T ∪ T', ht.snoc h (by omega) (by omega) hu⟩
    | false =>
      obtain ⟨T', hgave⟩ := ha
      refine ⟨T ∪ T', ht.touched.trans hgave.touched fun f hf => .inl hf, ht.scratch.trans hgave.scratch,
        hgave.full, ?_⟩
      have hshort := hgave.short
      have hle : ∑ p ∈ Finset.Ico 1 (n + 1), tableDemand s d p ≤ forkDemand s d :=
        Finset.sum_le_sum_of_subset (Finset.Ico_subset_Ico_right (by omega))
      rw [Finset.sum_Ico_succ_top hn, ← ht.count] at hle
      rw [tableDemand_touched h ht.touched (by omega) (by omega)] at hshort
      rw [Finset.card_union_of_disjoint (ht.touched.disjoint hgave.touched)]
      omega
  · exact ⟨∅, .refl _ s, .refl K s, by simp, fun p hp hp' => absurd hp' (by omega), fun _ _ _ => rfl⟩

/-! ### The whole copy -/

/-- What a `paging_fork_copy` that went through has done. -/
structure ForkCopied (d dc K : ℕ) (s t : PagingState) (T : Finset ℕ) : Prop where
  touched : Touched {K, dc} T s t
  scratch : ScratchOnly K s t
  count : T.card = forkDemand s d
  tables : ∀ p, 0 < p → p < 768 → TableCopied T s t d dc p
  kstack : t.entry dc kstackPdeIndex = s.entry d kstackPdeIndex
  others : ∀ i < 1024, i < 1 ∨ 768 ≤ i → i ≠ kstackPdeIndex → t.entry dc i = s.entry dc i
  unmounted : ∀ va, ScratchVa va → ¬Present (t.entry K (ptIndex va))

theorem forkDemand_touched (h : Site d dc K s) (ht : Touched {K, dc} T s t) : forkDemand t d = forkDemand s d := by
  apply Finset.sum_congr rfl
  intro p hp
  obtain ⟨hp, hp'⟩ := Finset.mem_Ico.mp hp
  exact tableDemand_touched h ht hp hp'

/-- The child keeps its copy when the table of the scratch pages changes. -/
theorem TableCopied.remount (h : Site d dc K s) (ht : Touched {K, dc} T s t) (hcopied : TableCopied T s t d dc p)
    (hp : p < 768) (hu : Within K t u) : TableCopied T s u d dc p := by
  have hdc : u.entry dc p = t.entry dc p := hu.entry h.child.2 (by omega)
  have hK : ∀ f ∈ T, f ≠ K := by
    rintro f hf rfl
    exact ht.not_mem h.kstack hf
  refine ⟨?_, fun hpresent => ?_, fun hpresent => ?_, fun hpresent q hq => ?_⟩
  · rw [hdc, hcopied.present]
  · rw [hdc, hcopied.flags hpresent]
  · rw [hdc]
    exact hcopied.frame hpresent
  · rw [hdc]
    refine (hcopied.pages hpresent q hq).later (Finset.Subset.refl T) ?_ fun f hf o ho => ?_
    · exact hu.entry (hK _ (hcopied.frame hpresent)) hq
    · apply hu.mem
      have hdiv : (f * 4096 + o) / 4096 = f := by omega
      rw [hdiv]
      exact hK f hf

/-- The parent may be looked at before the child's directory was written. -/
theorem TableCopied.since {s₁ : PagingState} (h : Site d dc K s) (hw : Within dc s s₁)
    (hcopied : TableCopied T s₁ t d dc p) (hp : 0 < p) (hp' : p < 768) : TableCopied T s t d dc p := by
  have hd : s₁.entry d p = s.entry d p := hw.entry h.dir.ne_child (by omega)
  refine ⟨?_, fun hpresent => ?_, fun hpresent => ?_, fun hpresent q hq => ?_⟩
  · rw [hcopied.present, hd]
  · rw [hcopied.flags (by rw [hd]; exact hpresent), hd]
  · exact hcopied.frame (by rw [hd]; exact hpresent)
  · have haside := h.table p hp hp' hpresent
    have hpage := hcopied.pages (by rw [hd]; exact hpresent) q hq
    rw [hd] at hpage
    refine hpage.since (hw.entry haside.ne_child hq) fun hpte o ho => ?_
    have hdiv : (s.entry (s.entry d p / 4096) q / 4096 * 4096 + o) / 4096 =
        s.entry (s.entry d p / 4096) q / 4096 := by omega
    apply hw.mem
    rw [hdiv]
    exact (h.page p hp hp' hpresent q hq hpte).ne_child

theorem pagingForkCopy_returns {child : ℕ} (h : Site d (L.dir child) K s)
    (hchild : ∀ p, 0 < p → p < 768 → ¬Present (s.entry (L.dir child) p)) :
    Returns (pagingForkCopy L child s) fun a => if a.1 then ∃ T, ForkCopied d (L.dir child) K s a.2 T
      else ∃ T, GaveUp {K, L.dir child} K (forkDemand s d) s a.2 T := by
  unfold pagingForkCopy
  rw [h.bench.window.read_pde (by decide), ok_bind, setWord_dir]
  obtain ⟨s₁, hs₁⟩ : ∃ s₁, s.setEntry (L.dir child) kstackPdeIndex (s.entry d kstackPdeIndex) = s₁ := ⟨_, rfl⟩
  have hshare : Within (L.dir child) s s₁ := hs₁ ▸ within_setEntry (by decide)
  have hstep : Touched {K, L.dir child} ∅ s s₁ := (Touched.refl _ s).and_then (Touched.of_within hshare) (by simp)
  have hscratch : ScratchOnly K s s₁ := .of_within hshare h.child.2.symm
  have hsite := h.touched hstep
  have hother : ∀ i < 1024, i ≠ kstackPdeIndex → s₁.entry (L.dir child) i = s.entry (L.dir child) i := by
    intro i hi hne
    rw [← hs₁]
    exact PagingState.entry_setEntry_of_ne (by decide) hi fun he => hne he.2
  have hkstack : s₁.entry (L.dir child) kstackPdeIndex = s.entry d kstackPdeIndex := by
    rw [← hs₁]
    exact PagingState.entry_setEntry_self PagingState.entry_lt
  have hindex : kstackPdeIndex = 956 := by decide
  have hdemand := forkDemand_touched h hstep
  have hnone : ∀ p, 0 < p → p < 768 → ¬Present (s₁.entry (L.dir child) p) := by
    intro p hp hp'
    rw [hother p (by omega) (by omega)]
    exact hchild p hp hp'
  rw [hs₁]
  refine (forkPdes_return hsite hnone).bind fun a ha => ?_
  obtain ⟨ok, t⟩ := a
  cases ok with
  | false =>
    obtain ⟨T, hgave⟩ := ha
    have hboth := hstep.trans hgave.touched fun f hf => .inl hf
    rw [Finset.empty_union] at hboth
    refine returns_ok ⟨T, hboth, hscratch.trans hgave.scratch, hgave.full, ?_⟩
    rw [← hdemand]
    exact hgave.short
  | true =>
    obtain ⟨T, hcopied⟩ := ha
    have hboth := hstep.trans hcopied.touched fun f hf => .inl hf
    rw [Finset.empty_union] at hboth
    -- both scratch pages are unmapped
    refine ((h.touched hboth).bench.unmount_touched (.inl rfl)).bind fun t₁ h₁ => ?_
    obtain ⟨hpt, hptAbsent⟩ := h₁
    have hboth₁ := hboth.and_then (Touched.of_within hpt.within) (by simp)
    refine ((h.touched hboth₁).bench.unmount_touched (.inr rfl)).bind fun t₂ h₂ => ?_
    obtain ⟨hdata, hdataAbsent⟩ := h₂
    have hboth₂ := hboth₁.and_then (Touched.of_within hdata.within) (by simp)
    have hwithin : Within K t t₂ := hpt.within.trans hdata.within
    have hdir : ∀ i < 1024, t₂.entry (L.dir child) i = t.entry (L.dir child) i :=
      fun i hi => hwithin.entry h.child.2 hi
    refine returns_ok ⟨T, hboth₂, ?_, ?_, fun p hp hp' => ?_, ?_, fun i hi hi' hne => ?_, ?_⟩
    · have hcopyScratch := hscratch.trans hcopied.scratch
      exact (hcopyScratch.trans (.remounted (.inl rfl) hpt)).trans (.remounted (.inr rfl) hdata)
    · rw [hcopied.count, ← hdemand]
      rfl
    · have htable := (hcopied.tables p hp hp').remount hsite hcopied.touched hp' hwithin
      exact htable.since h hshare hp hp'
    · rw [hdir _ (by decide), hcopied.others _ (by decide) (by omega), hkstack]
    · rw [hdir i hi, hcopied.others i hi (by omega), hother i hi hne]
    · rintro va (rfl | rfl)
      · rw [hdata.other _ (by decide) (by decide)]
        exact hptAbsent
      · exact hdataAbsent

/-! ### Enough frames -/

def freeFrames (s : PagingState) : Finset ℕ := (Finset.range physTotalFrames).filter fun f => !bitmapTest s.bitmap f

theorem mem_freeFrames : f ∈ freeFrames s ↔ NewFrame s.bitmap f := by
  simp only [freeFrames, Finset.mem_filter, Finset.mem_range, Bool.not_eq_true']
  exact ⟨fun h => ⟨h.1, h.2⟩, fun h => ⟨h.lt, h.clear⟩⟩

theorem physFreeCount_eq (s : PagingState) : physFreeCount s.bitmap = (freeFrames s).card := by
  have hcount : ∀ (n : ℕ) (b : ℕ → Bool), (List.range n).countP b = ((Finset.range n).filter fun f => b f = true).card := by
    intro n b
    rw [List.countP_eq_length_filter, Finset.card_def, Finset.filter_val]
    simp [Multiset.range]
  exact hcount physTotalFrames fun f => !bitmapTest s.bitmap f

theorem Touched.card_le {W : Set ℕ} (h : Touched W T s t) : T.card ≤ physFreeCount s.bitmap := by
  rw [physFreeCount_eq]
  apply Finset.card_le_card
  intro f hf
  exact mem_freeFrames.mpr (h.fresh f hf)

/-- All free frames are taken. -/
theorem GaveUp.card_eq {W : Set ℕ} (h : GaveUp W K n s t T) : T.card = physFreeCount s.bitmap := by
  apply le_antisymm h.touched.card_le
  rw [physFreeCount_eq]
  apply Finset.card_le_card
  intro f hf
  have hnew := mem_freeFrames.mp hf
  have hused := h.full f hnew.lt
  rw [InUse, h.touched.bitmap, hnew.clear, Bool.false_or, decide_eq_true_iff] at hused
  exact hused

/-- The copy goes through just when there are enough frames. -/
theorem pagingForkCopy_answer {child : ℕ} {a : Bool × PagingState} (h : Site d (L.dir child) K s)
    (hchild : ∀ p, 0 < p → p < 768 → ¬Present (s.entry (L.dir child) p)) (ha : pagingForkCopy L child s = .ok a) :
    a.1 = decide (forkDemand s d ≤ physFreeCount s.bitmap) := by
  obtain ⟨b, hb, hpost⟩ := pagingForkCopy_returns h hchild
  obtain rfl := Except.ok.inj (ha.symm.trans hb)
  obtain ⟨ok, t⟩ := a
  cases ok with
  | true =>
    obtain ⟨T, hcopied⟩ := hpost
    symm
    apply decide_eq_true
    rw [← hcopied.count]
    exact hcopied.touched.card_le
  | false =>
    obtain ⟨T, hgave⟩ := hpost
    symm
    apply decide_eq_false
    rw [← hgave.card_eq]
    exact Nat.not_le.mpr hgave.short

end HekaOS.Paging
