import HekaOS.ForkPrivacy
import HekaOS.PageEffects

/-!
# `paging_proc_teardown` gives a user half back

The two loops of `paging_proc_teardown` clear the bits of the page tables of a directory and of the
pages behind them, and no others. Apart from the bitmap they change the entry of a scratch page
and the entries of the directory that is torn down.
-/

namespace HekaOS.Paging
open MachineWord KernelMemory KernelTriples ByteMemory PageWalk WordBitmap PhysPageFrame AddressMap
open Tasks (maxProc pageSize)

variable {L : Layout} {s t u : PagingState} {owner : ℕ → Owner} {cur d f g i j K n p P pid q va : ℕ}

/-- The bits of the frames `D` are cleared. -/
def GivenBack (D : ℕ → Prop) (s t : PagingState) : Prop :=
  ∀ x, bitmapTest t.bitmap x = true ↔ bitmapTest s.bitmap x = true ∧ ¬D x

/-- A page behind one of the first `n` entries of a table. -/
def PageBelow (s : PagingState) (P n f : ℕ) : Prop := ∃ q < n, Present (s.entry P q) ∧ s.entry P q / 4096 = f

/-- A page table at one of the indices from 1 up to `n`, or a page behind it. -/
def FrameBelow (s : PagingState) (d n f : ℕ) : Prop :=
  ∃ p, 0 < p ∧ p < n ∧ Present (s.entry d p) ∧
    (s.entry d p / 4096 = f ∨ PageBelow s (s.entry d p / 4096) 1024 f)

theorem userFrame_iff : UserFrame L s pid f ↔ FrameBelow s (L.dir pid) 768 f := by
  constructor
  · rintro (⟨hp, hp', hpresent, hf⟩ | ⟨hp, hp', hpresent, hq, hpte, hf⟩)
    · exact ⟨_, hp, hp', hpresent, .inl hf⟩
    · exact ⟨_, hp, hp', hpresent, .inr ⟨_, hq, hpte, hf⟩⟩
  · rintro ⟨p, hp, hp', hpresent, hf | ⟨q, hq, hpte, hf⟩⟩
    · exact .table hp hp' hpresent hf
    · exact .page hp hp' hpresent hq hpte hf

/-- A frame that `phys_free_frame` takes back. -/
def Freeable (f : ℕ) : Prop := reservedFrames ≤ f ∧ f < physTotalFrames

theorem GivenBack.free {D D' : ℕ → Prop} (h : GivenBack D s t) (hf : Freeable f) (hD : ∀ x, D' x ↔ D x ∨ x = f)
    (hu : u.bitmap = physFreeFrame (f * 4096) t.bitmap) : GivenBack D' s u := by
  intro x
  rw [hu, bitmapTest_free _ hf.1 hf.2, Bool.and_eq_true, h x, hD x, Bool.not_eq_true', decide_eq_false_iff_not]
  tauto

theorem GivenBack.congr {D D' : ℕ → Prop} (h : GivenBack D s t) (hD : ∀ x, D' x ↔ D x) (hu : u.bitmap = t.bitmap) :
    GivenBack D' s u := by
  intro x
  rw [hu, h x, hD x]

/-! ### One page table -/

theorem pageBelow_succ (x : ℕ) : PageBelow s P (n + 1) x ↔ PageBelow s P n x ∨
    Present (s.entry P n) ∧ s.entry P n / 4096 = x := by
  constructor
  · rintro ⟨q, hq, hpresent, hf⟩
    by_cases hlast : q = n
    · subst hlast
      exact .inr ⟨hpresent, hf⟩
    · exact .inl ⟨q, by omega, hpresent, hf⟩
  · rintro (⟨q, hq, hpresent, hf⟩ | ⟨hpresent, hf⟩)
    · exact ⟨q, by omega, hpresent, hf⟩
    · exact ⟨n, by omega, hpresent, hf⟩

/-- The pages of a mounted table are given back. -/
theorem freePtes_return (hshows : Shows s d K forkScratchPtVa P)
    (hpages : ∀ q < 1024, Present (s.entry P q) → Freeable (s.entry P q / 4096)) :
    Returns ((List.range 1024).foldlM freePte s) fun t =>
      t.cr3 = s.cr3 ∧ t.mem = s.mem ∧ GivenBack (PageBelow s P 1024) s t := by
  rw [List.range_eq_range']
  refine returns_foldlM_range' (I := fun n t => t.cr3 = s.cr3 ∧ t.mem = s.mem ∧ GivenBack (PageBelow s P n) s t)
    (fun n _ hn t ht => ?_) ⟨rfl, rfl, fun x => ?_⟩
  · obtain ⟨hcr3, hmem, hback⟩ := ht
    have hn : n < 1024 := by omega
    have hentry : ∀ f j, t.entry f j = s.entry f j := by
      intro f j
      unfold PagingState.entry
      rw [hmem]
    have hread := (hshows.congr hcr3 (hentry _ _) (hentry _ _)).read_eq hn
    rw [hentry] at hread
    unfold freePte
    rw [hread, ok_bind]
    by_cases hpresent : Present (s.entry P n)
    · rw [if_neg (mt present_iff.mp (not_not.mpr hpresent)), clearLow_entry PagingState.entry_lt]
      refine returns_ok ⟨hcr3, hmem, hback.free (hpages n hn hpresent) (fun x => ?_) rfl⟩
      rw [pageBelow_succ]
      simp only [hpresent, true_and, eq_comm]
    · rw [if_pos (present_iff.mpr hpresent)]
      refine returns_ok ⟨hcr3, hmem, hback.congr (fun x => ?_) rfl⟩
      rw [pageBelow_succ]
      simp only [hpresent, false_and, or_false]
  · refine (and_iff_left ?_).symm
    rintro ⟨q, hq, -⟩
    exact Nat.not_lt_zero q hq

/-! ### The user half -/

/-- What `paging_proc_teardown` finds: the directory in frame `dc` is not the current one, and its
tables are none of the frames that are stored to. -/
structure TeardownSite (d dc K : ℕ) (s : PagingState) : Prop where
  bench : Bench d K s
  other : d ≠ dc
  kstack : dc ≠ K
  table : ∀ p, 0 < p → p < 768 → Present (s.entry dc p) →
    Freeable (s.entry dc p / 4096) ∧ s.entry dc p / 4096 ≠ K ∧ s.entry dc p / 4096 ≠ dc
  page : ∀ p, 0 < p → p < 768 → Present (s.entry dc p) → ∀ q < 1024, Present (s.entry (s.entry dc p / 4096) q) →
    Freeable (s.entry (s.entry dc p / 4096) q / 4096)

/-- The tables at the indices from 1 up to `n` are given back. -/
structure TornDown (dc K n : ℕ) (s t : PagingState) : Prop where
  cr3 : t.cr3 = s.cr3
  kept : ∀ a, a / 4096 ≠ K → a / 4096 ≠ dc → t.mem a = s.mem a
  scratch : ScratchOnly K s t
  absent : ∀ p, 0 < p → p < n → ¬Present (t.entry dc p)
  others : ∀ i < 1024, i < 1 ∨ n ≤ i → t.entry dc i = s.entry dc i
  bitmap : GivenBack (FrameBelow s dc n) s t

variable {dc : ℕ}

theorem TornDown.entry (h : TornDown dc K n s t) (hK : f ≠ K) (hdc : f ≠ dc) (hj : j < 1024) :
    t.entry f j = s.entry f j := PagingState.entry_of_mem (fun a ha => h.kept a (ha ▸ hK) (ha ▸ hdc)) hj

theorem TornDown.refl (dc K : ℕ) (s : PagingState) : TornDown dc K 1 s s := by
  refine ⟨rfl, fun _ _ _ => rfl, .refl K s, fun p hp hp' => by omega, fun _ _ _ => rfl, fun x => ?_⟩
  refine (and_iff_left ?_).symm
  rintro ⟨p, hp, hp', -⟩
  omega

theorem frameBelow_succ (hn : 0 < n) (x : ℕ) : FrameBelow s d (n + 1) x ↔ FrameBelow s d n x ∨
    Present (s.entry d n) ∧ (s.entry d n / 4096 = x ∨ PageBelow s (s.entry d n / 4096) 1024 x) := by
  constructor
  · rintro ⟨p, hp, hp', hpresent, hx⟩
    by_cases hlast : p = n
    · subst hlast
      exact .inr ⟨hpresent, hx⟩
    · exact .inl ⟨p, hp, by omega, hpresent, hx⟩
  · rintro (⟨p, hp, hp', hpresent, hx⟩ | ⟨hpresent, hx⟩)
    · exact ⟨p, hp, by omega, hpresent, hx⟩
    · exact ⟨n, hn, by omega, hpresent, hx⟩

namespace TeardownSite

theorem bench_later (h : TeardownSite d dc K s) (ht : TornDown dc K n s t) : Bench d K t :=
  h.bench.congr ht.cr3 fun _ hi => ht.entry h.bench.apart.symm h.other hi

/-- A table that is present is mounted, its pages and the table itself go back, and its entry is cleared. -/
theorem teardownPde_returns {pid : ℕ} (h : TeardownSite d (L.dir pid) K s) (ht : TornDown (L.dir pid) K n s t)
    (hn : 0 < n) (hn' : n < 768) : Returns (teardownPde L pid t n) (TornDown (L.dir pid) K (n + 1) s) := by
  have hsame : t.entry (L.dir pid) n = s.entry (L.dir pid) n := ht.others n (by omega) (.inr (le_refl n))
  unfold teardownPde
  rw [load_dir, hsame]
  dsimp only
  by_cases hpresent : Present (s.entry (L.dir pid) n)
  · obtain ⟨hback, hPK, hPdc⟩ := h.table n hn hn' hpresent
    have hpage := h.page n hn hn' hpresent
    obtain ⟨P, hP⟩ : ∃ P, s.entry (L.dir pid) n / 4096 = P := ⟨_, rfl⟩
    rw [hP] at hback hPK hPdc hpage
    rw [if_neg (mt present_iff.mp (not_not.mpr hpresent)), clearLow_entry PagingState.entry_lt, hP]
    refine ((h.bench_later ht).mount_touched (.inl rfl) P _).bind fun t₁ h₁ => ?_
    obtain ⟨hmount, hshows⟩ := h₁
    have hentry₁ : ∀ q < 1024, t₁.entry P q = s.entry P q := by
      intro q hq
      rw [hmount.within.entry hPK hq, ht.entry hPK hPdc hq]
    refine (freePtes_return (hshows (hback.2.trans (by decide))) fun q hq hpte => ?_).bind fun t₂ h₂ => ?_
    · rw [hentry₁ q hq] at hpte ⊢
      exact hpage q hq hpte
    obtain ⟨hcr3₂, hmem₂, hback₂⟩ := h₂
    have hentry₂ : ∀ f j, t₂.entry f j = t₁.entry f j := by
      intro f j
      unfold PagingState.entry
      rw [hmem₂]
    have hbench₂ : Bench d K t₂ := by
      refine (h.bench_later ht).congr (hcr3₂.trans hmount.within.cr3) fun i hi => ?_
      rw [hentry₂, hmount.within.entry h.bench.apart.symm hi]
    refine (hbench₂.unmount_touched (.inl rfl)).bind fun t₃ h₃ => ?_
    obtain ⟨hunmount, -⟩ := h₃
    rw [setWord_dir]
    -- the bitmap loses the pages and then the table, and the directory its entry
    obtain ⟨u, hu⟩ : ∃ u, (t₃.free (P * 4096)).setEntry (L.dir pid) n pageRw = u := ⟨_, rfl⟩
    have hset : Within (L.dir pid) (t₃.free (P * 4096)) u := hu ▸ within_setEntry (by omega)
    have hfree : ∀ f j, (t₃.free (P * 4096)).entry f j = t₃.entry f j := fun _ _ => rfl
    have hdir : ∀ i < 1024, t₃.entry (L.dir pid) i = t.entry (L.dir pid) i := by
      intro i hi
      rw [hunmount.within.entry h.kstack hi, hentry₂, hmount.within.entry h.kstack hi]
    have hself : u.entry (L.dir pid) n = pageRw := hu ▸ PagingState.entry_setEntry_self (by decide)
    have hrest : ∀ i < 1024, i ≠ n → u.entry (L.dir pid) i = t.entry (L.dir pid) i := by
      intro i hi hne
      rw [← hu, PagingState.entry_setEntry_of_ne (by omega) hi fun he => hne he.2, hfree, hdir i hi]
    rw [hu]
    refine returns_ok ⟨?_, fun a hK hdc => ?_, ?_, fun p hp hpn => ?_, fun i hi hin => ?_, ?_⟩
    · have hcr3₃ : u.cr3 = t₃.cr3 := hset.cr3
      rw [hcr3₃, hunmount.within.cr3, hcr3₂, hmount.within.cr3, ht.cr3]
    · have hmem₃ : u.mem a = t₃.mem a := hset.mem a hdc
      rw [hmem₃, hunmount.within.mem a hK, hmem₂, hmount.within.mem a hK, ht.kept a hK hdc]
    · refine ht.scratch.trans fun j hj h₁ h₂ => ?_
      have hj₁ := ScratchOnly.remounted (.inl rfl) hmount j hj h₁ h₂
      have hj₃ := ScratchOnly.remounted (.inl rfl) hunmount j hj h₁ h₂
      rw [hset.entry h.kstack.symm hj, hfree, hj₃, hentry₂, hj₁]
    · by_cases hlast : p = n
      · subst hlast
        rw [hself]
        decide
      · rw [hrest p (by omega) hlast]
        exact ht.absent p hp (by omega)
    · rw [hrest i hi (by omega)]
      exact ht.others i hi (by omega)
    · have hbitmap : u.bitmap = physFreeFrame (P * 4096) t₃.bitmap := hset.bitmap
      have hpages : ∀ x, PageBelow t₁ P 1024 x ↔ PageBelow s P 1024 x := by
        intro x
        refine exists_congr fun q => and_congr_right fun hq => ?_
        rw [hentry₁ q hq]
      have hcleared : GivenBack (fun x => FrameBelow s (L.dir pid) n x ∨ PageBelow s P 1024 x) s t₃ := by
        intro x
        rw [hunmount.within.bitmap, hback₂ x, hmount.within.bitmap, ht.bitmap x, hpages x]
        tauto
      refine hcleared.free hback (fun x => ?_) hbitmap
      rw [frameBelow_succ hn, hP]
      simp only [hpresent, true_and, eq_comm (a := P)]
      tauto
  · rw [if_pos (present_iff.mpr hpresent)]
    refine returns_ok ⟨ht.cr3, ht.kept, ht.scratch, fun p hp hpn => ?_, fun i hi hin => ht.others i hi (by omega),
      ht.bitmap.congr (fun x => ?_) rfl⟩
    · by_cases hlast : p = n
      · subst hlast
        rw [hsame]
        exact hpresent
      · exact ht.absent p hp (by omega)
    · rw [frameBelow_succ hn]
      simp only [hpresent, false_and, or_false]

theorem pagingProcTeardown_returns {pid : ℕ} (h : TeardownSite d (L.dir pid) K s) :
    Returns (pagingProcTeardown L pid s) (TornDown (L.dir pid) K 768 s) := by
  unfold pagingProcTeardown
  exact returns_foldlM_range' (I := fun n t => TornDown (L.dir pid) K n s t)
    (fun n hn hn' t ht => h.teardownPde_returns ht hn (by omega)) (.refl _ K s)

end TeardownSite

/-- The ledger tells the frames apart that are given back. -/
theorem Sound.teardownSite (h : Sound L cur s owner) (hbench : Bench (L.dir cur) K s) (hpid : pid < maxProc)
    (hother : pid ≠ cur) : TeardownSite (L.dir cur) (L.dir pid) K s := by
  have hindex : kstackPdeIndex = 956 := by decide
  have hK : owner K = tableOf cur kstackPdeIndex := by
    rw [← hbench.table]
    exact h.owned.owner_table h.cur_lt (by decide) (by decide) hbench.present
  have htable : ∀ p, 0 < p → p < 768 → Present (s.entry (L.dir pid) p) →
      owner (s.entry (L.dir pid) p / 4096) = .table p pid := by
    intro p hp hp' hpresent
    rw [h.owned.owner_table hpid hp (by omega) hpresent]
    exact Working.tableOf_user hp'
  refine ⟨hbench, fun he => hother (dir_inj he).symm, (h.owned.ne_dir (Owned.owner_ne_free hK) hpid).symm,
    fun p hp hp' hpresent => ?_, fun p hp hp' hpresent q hq hpte => ?_⟩
  · have hown := htable p hp hp' hpresent
    have hfree := Owned.table_ne_free hown
    obtain ⟨hlow, hlt, -⟩ := h.owned.used _ hfree
    refine ⟨⟨hlow, hlt⟩, fun he => ?_, h.owned.ne_dir hfree hpid⟩
    rw [he, hK] at hown
    have := (Owner.table.inj hown).1
    omega
  · have hns : ¬Scratch p q := fun hc => by
      have := (scratch_iff.mp hc).1
      omega
    have hown := h.owned.pte _ p pid (htable p hp hp' hpresent) q hq hns hpte
    obtain ⟨hlow, hlt, -⟩ := h.owned.used _ (Owned.page_ne_free hown)
    exact ⟨hlow, hlt⟩

end HekaOS.Paging
