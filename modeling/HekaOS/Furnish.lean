import HekaOS.Rollback
import HekaOS.TaskMemory

/-!
# The kernel stack and the directory of a new task

What `furnish` leaves, in the directory that is current: the pages of a kernel stack, and the frames
of a user half. Where it fails, all pages are unmapped again, and all frames given back but for those of
a user half that `task_fork` could not complete.
-/

namespace HekaOS.TaskMemory
open MachineWord KernelMemory KernelTriples PageWalk WordBitmap PhysPageFrame AddressMap Paging
open Tasks (maxProc pageSize kstackPages kstackVa)

variable {L : Layout} {s t u b : PagingState} {owner : ℕ → Owner} {kind : SpawnKind} {E E' : Set ℕ} {T T' : Finset ℕ}
  {k : ℕ → ℕ} {cur d g i j K p pid : ℕ}

/-! ### The slots of the kernel stacks -/

theorem slot_paged (hpid : pid < maxProc) (hp : p < kstackPages) : Paged (kstackVa pid + p * pageSize) := by
  simp only [maxProc, kstackPages, kstackVa, Tasks.kstackVaBase, pageSize] at *
  exact ⟨by omega, by omega, by omega⟩

theorem slot_pdIndex (hpid : pid < maxProc) (hp : p < kstackPages) :
    pdIndex (kstackVa pid + p * pageSize) = kstackPdeIndex := by
  have hindex : kstackPdeIndex = 956 := by decide
  rw [hindex]
  simp only [maxProc, kstackPages, kstackVa, Tasks.kstackVaBase, pageSize, pdIndex] at *
  omega

theorem slot_ptIndex (hpid : pid < maxProc) (hp : p < kstackPages) :
    ptIndex (kstackVa pid + p * pageSize) = 2 * pid + p := by
  simp only [maxProc, kstackPages, kstackVa, Tasks.kstackVaBase, pageSize, ptIndex] at *
  omega

theorem slot_not_scratch (hpid : pid < maxProc) (hp : p < kstackPages) : 2 * pid + p ∉ scratchEntries := by
  intro hc
  have hj := (scratch_iff.mp hc).2
  simp only [maxProc, kstackPages] at *
  omega

theorem slot_not_scratchVa (hpid : pid < maxProc) (hp : p < kstackPages) : ¬ScratchVa (kstackVa pid + p * pageSize) := by
  intro hc
  refine slot_not_scratch hpid hp ⟨_, hc, slot_pdIndex hpid hp, slot_ptIndex hpid hp⟩

/-- No page of the kernel stack of `pid` is mapped in the current directory. -/
def SlotsFree (L : Layout) (cur pid : ℕ) (s : PagingState) : Prop :=
  ∀ p < kstackPages, ¬Maps s (L.dir cur) kstackPdeIndex (2 * pid + p)

/-- Frame `k p` is page `p` of the kernel stack, for both pages. Since `b` the frames `T` were taken, and stores
went to the directory of the task, the page table of the kernel stacks and the frames taken. -/
structure Stacked (L : Layout) (pid K : ℕ) (E : Set ℕ) (k : ℕ → ℕ) (T : Finset ℕ) (b u : PagingState) : Prop where
  touched : Touched {K, L.dir pid} T b u
  page : ∀ p < kstackPages, Points (u.entry K (2 * pid + p)) (k p)
  taken : ∀ p < kstackPages, k p ∈ T
  apart : k 0 ≠ k 1
  others : ∀ j < 1024, j ∉ E → (∀ p < kstackPages, j ≠ 2 * pid + p) → u.entry K j = b.entry K j
  kernel : KernelFrom L b u

theorem Stacked.and_then (h : Stacked L pid K E k T b t) (hu : Touched {K, L.dir pid} T' t u)
    (hkept : ∀ j < 1024, j ∉ E' → u.entry K j = t.entry K j) (hkernel : KernelFrom L t u) (hpid : pid < maxProc)
    (hslot : ∀ p < kstackPages, 2 * pid + p ∉ E') : Stacked L pid K (E ∪ E') k (T ∪ T') b u := by
  have hlt : ∀ p < kstackPages, 2 * pid + p < 1024 := by
    intro p hp
    simp only [maxProc, kstackPages] at *
    omega
  refine ⟨h.touched.trans hu fun f hf => .inl hf, fun p hp => ?_, fun p hp => Finset.mem_union_left _ (h.taken p hp),
    h.apart, fun j hj hout hne => ?_, h.kernel.trans hkernel⟩
  · rw [hkept _ (hlt p hp) (hslot p hp)]
    exact h.page p hp
  · rw [hkept j hj fun hE => hout (.inr hE)]
    exact h.others j hj (fun hE => hout (.inl hE)) hne

theorem pageIn_tabled (h : Tabled d K p s) (hp : p < 1024) (ht : PageIn K i g s t) : Tabled d K p t :=
  h.congr ht.cr3 hp fun _ hj => entry_congr ht.mem h.apart.symm hj

theorem pageOut_tabled (h : Tabled d K p s) (hp : p < 1024) (ht : PageOut K i g s t) : Tabled d K p t :=
  h.congr ht.cr3 hp fun _ hj => entry_congr ht.mem h.apart.symm hj

/-- Both pages of a kernel stack are unmapped, and their frames go back. -/
theorem freeKstack_returns (hd : Tabled d K kstackPdeIndex u) (hpid : pid < maxProc)
    (hpage : ∀ p < kstackPages, Points (u.entry K (2 * pid + p)) (k p)) (hback : ∀ p < kstackPages, Freeable (k p)) :
    Returns (freeKstack (kstackVa pid) kstackPages u) fun v =>
      ∃ w, PageOut K (2 * pid) (k 0) u w ∧ PageOut K (2 * pid + 1) (k 1) w v := by
  have hfree : ∀ p < kstackPages, ∀ {s : PagingState}, Tabled d K kstackPdeIndex s → Points (s.entry K (2 * pid + p)) (k p) →
      ∃ t, freePage (kstackVa pid + p * pageSize) s = .ok t ∧ PageOut K (2 * pid + p) (k p) s t := by
    intro p hp s hs hpoints
    have hindex := slot_ptIndex hpid hp
    rw [← hindex] at hpoints ⊢
    exact hs.freePage (slot_paged hpid hp) (slot_pdIndex hpid hp) hpoints (hback p hp).1 (hback p hp).2
  obtain ⟨w, hw, hout₀⟩ := hfree 0 (by decide) hd (hpage 0 (by decide))
  have hpage₁ : Points (w.entry K (2 * pid + 1)) (k 1) := by
    rw [hout₀.others _ (by simp only [maxProc] at hpid; omega) (by omega)]
    exact hpage 1 (by decide)
  obtain ⟨v, hv, hout₁⟩ := hfree 1 (by decide) (pageOut_tabled hd (by decide) hout₀) hpage₁
  have htwo : TaskMemory.freeKstack (kstackVa pid) kstackPages u = freePage (kstackVa pid + 0 * pageSize) u >>= fun s =>
      freePage (kstackVa pid + 1 * pageSize) s >>= fun s => .ok s := rfl
  rw [htwo, hw, ok_bind, hv, ok_bind]
  exact returns_ok ⟨w, hout₀, hout₁⟩

/-- What unmapping the kernel stack leaves of the frames that were taken. -/
theorem Stacked.freeKstack (h : Stacked L pid K E k T b u) (hd : Tabled d K kstackPdeIndex u) (hpid : pid < maxProc)
    (hlow : ∀ f < reservedFrames, InUse b f) : Returns (freeKstack (kstackVa pid) kstackPages u) fun v =>
      (∃ w, PageOut K (2 * pid) (k 0) u w ∧ PageOut K (2 * pid + 1) (k 1) w v) ∧
        Touched {K, L.dir pid} ((T.erase (k 0)).erase (k 1)) b v := by
  have hback : ∀ p < kstackPages, Freeable (k p) := by
    intro p hp
    have hnew := h.touched.fresh _ (h.taken p hp)
    refine ⟨?_, hnew.lt⟩
    by_contra hlt
    exact Bool.false_ne_true (hnew.clear.symm.trans (hlow _ (Nat.not_le.mp hlt)))
  refine (freeKstack_returns hd hpid h.page hback).mono fun v hv => ?_
  obtain ⟨w, hout₀, hout₁⟩ := hv
  have htouched₀ := h.touched.pageOut hout₀ (by simp) (h.taken 0 (by decide))
  refine ⟨⟨w, hout₀, hout₁⟩, htouched₀.pageOut hout₁ (by simp) ?_⟩
  exact Finset.mem_erase.mpr ⟨h.apart.symm, h.taken 1 (by decide)⟩

theorem tabled_owner (hs : Sound L cur b owner) (hd : Tabled (L.dir cur) K kstackPdeIndex b) :
    owner K = tableOf cur kstackPdeIndex := by
  rw [← hd.table]
  exact hs.owned.owner_table hs.cur_lt (by decide) (by decide) hd.present

/-- The loop unmaps again what it has mapped, or maps both pages. -/
theorem mapKstack_returns (h : Sound L cur s owner) (hwindow : Window s (L.dir cur)) (hpid : pid < maxProc)
    (hslots : SlotsFree L cur pid s) :
    Returns (mapKstack (kstackVa pid) (List.range kstackPages) s) fun r =>
      r.1 = some 0 ∧ SameBits s r.2 ∧ (Present (s.entry (L.dir cur) kstackPdeIndex) → Full s) ∨
      ∃ b K, TableMade L cur kstackPdeIndex s b ∧ Tabled (L.dir cur) K kstackPdeIndex b ∧
        (r.1 = some 1 ∧ Restored L pid K ∅ ∅ b r.2 ∧ physFreeCount b.bitmap < 2 ∨
          r.1 = none ∧ ∃ k : ℕ → ℕ, Stacked L pid K ∅ k {k 1, k 0} b r.2) := by
  have hlt : ∀ p < kstackPages, 2 * pid + p < 1024 := by
    intro p hp
    simp only [maxProc, kstackPages] at *
    omega
  have hrange : List.range kstackPages = [0, 1] := rfl
  rw [hrange, mapKstack]
  have hfirst := h.allocPage_outcome hwindow (slot_paged hpid (show 0 < kstackPages by decide)) (pagePresent ||| pageRw)
  rw [slot_pdIndex hpid (by decide), slot_ptIndex hpid (by decide)] at hfirst
  refine hfirst.bind fun r hr => ?_
  obtain ⟨a, s₁⟩ := r
  rcases hr with ⟨rfl, hsame, hfull⟩ | ⟨rfl, b, K, g₀, hmade, htabled, hin₀⟩
  · rw [if_pos rfl]
    exact returns_ok (.inl ⟨rfl, hsame, hfull⟩)
  have hne : kstackVa pid + 0 * pageSize ≠ 0 := by
    have := (slot_paged hpid (show 0 < kstackPages by decide)).above
    omega
  rw [if_neg hne, mapKstack]
  obtain ⟨owner', hb⟩ := hmade.sound
  have hK := tabled_owner hb htabled
  have htouched₀ := (Touched.refl {K, L.dir pid} b).pageIn hin₀ (by simp)
  have hreserved : ∀ f < reservedFrames, InUse s₁ f := fun f hf => htouched₀.inUse (hb.owned.reserved f hf)
  have htabled₁ : Tabled (L.dir cur) K kstackPdeIndex s₁ := pageIn_tabled htabled (by decide) hin₀
  have hsecond := htabled₁.allocPage (slot_paged hpid (show 1 < kstackPages by decide)) (slot_pdIndex hpid (by decide))
    hreserved (pagePresent ||| pageRw)
  rw [slot_ptIndex hpid (by decide)] at hsecond
  rcases hsecond with ⟨hfull, hok⟩ | ⟨g₁, s₂, hok, hin₁⟩
  · -- the first page is unmapped
    have hfirst : Points (s₁.entry K (2 * pid + 0)) g₀ := hin₀.entry
    have hindex := slot_ptIndex hpid (show 0 < kstackPages by decide)
    rw [← hindex] at hfirst
    obtain ⟨s₂, hfree, hout₀⟩ := htabled₁.freePage (slot_paged hpid (show 0 < kstackPages by decide))
      (slot_pdIndex hpid (by decide)) hfirst hin₀.low hin₀.new.lt
    rw [hindex] at hout₀
    have hone : freeKstack (kstackVa pid) 1 s₁ = freePage (kstackVa pid + 0 * pageSize) s₁ >>= fun s => .ok s := rfl
    rw [hok, ok_bind, if_pos rfl, hone, hfree]
    have htouched := htouched₀.pageOut hout₀ (by simp) (Finset.mem_insert_self g₀ ∅)
    rw [Finset.erase_insert (Finset.notMem_empty g₀)] at htouched
    refine returns_ok (.inr ⟨b, K, hmade, htabled, .inl ⟨rfl, ⟨htouched, fun j hj _ => ?_,
      .of_same fun pid' hpid' i hi => ?_⟩, ?_⟩⟩)
    · by_cases hslot : j = 2 * pid + 0
      · subst hslot
        have habsent := mt (hmade.maps _ _ (by decide) (by decide) hj).mp (hslots 0 (by decide))
        rw [hout₀.entry]
        refine .inr ⟨by decide, fun hc => habsent ⟨htabled.present, ?_⟩⟩
        rw [htabled.table]
        exact hc
      · left
        rw [hout₀.others j hj hslot, hin₀.others j hj hslot]
    · have hKdir : L.dir pid' ≠ K := (hb.owned.ne_dir (Owned.owner_ne_free hK) hpid').symm
      rw [entry_congr hout₀.mem hKdir hi, entry_congr hin₀.mem hKdir hi]
    · have hcount := htouched₀.freeCount
      rw [full_iff.mp hfull, Finset.card_insert_of_notMem (Finset.notMem_empty g₀), Finset.card_empty] at hcount
      omega
  · have hne₁ : kstackVa pid + 1 * pageSize ≠ 0 := by
      have := (slot_paged hpid (show 1 < kstackPages by decide)).above
      omega
    rw [hok, ok_bind, if_neg hne₁, mapKstack]
    have hapart : g₀ ≠ g₁ := by
      rintro rfl
      exact (htouched₀.newFrame hin₁.new).2 (Finset.mem_insert_self g₀ ∅)
    refine returns_ok (.inr ⟨b, K, hmade, htabled, .inr ⟨rfl, fun p => if p = 0 then g₀ else g₁,
      htouched₀.pageIn hin₁ (by simp), fun p hp => ?_, fun p hp => ?_, hapart, fun j hj _ hout => ?_,
      .of_same fun pid' hpid' i hi => ?_⟩⟩)
    · by_cases hp0 : p = 0
      · subst hp0
        rw [if_pos rfl, hin₁.others _ (hlt 0 hp) (by omega)]
        exact hin₀.entry
      · have hp1 : p = 1 := by
          simp only [kstackPages] at hp
          omega
        subst hp1
        exact hin₁.entry
    · split
      · simp
      · simp
    · rw [hin₁.others j hj (hout 1 (by decide)), hin₀.others j hj (hout 0 (by decide))]
    · have hKdir : L.dir pid' ≠ K := (hb.owned.ne_dir (Owned.owner_ne_free hK) hpid').symm
      rw [entry_congr hin₁.mem hKdir hi, entry_congr hin₀.mem hKdir hi]

/-! ### The calls one after the other -/

/-- The pages of a kernel stack, by their indices. -/
def slots (pid : ℕ) : Set (ℕ × ℕ) := {x | ∃ p < kstackPages, x = (kstackPdeIndex, 2 * pid + p)}

theorem mem_slots (hpid : pid < maxProc) (hp : p < kstackPages) :
    (pdIndex (kstackVa pid + p * pageSize), ptIndex (kstackVa pid + p * pageSize)) ∈ slots pid :=
  ⟨p, hp, by rw [slot_pdIndex hpid hp, slot_ptIndex hpid hp]⟩

variable {n : ℕ}

theorem freeKstack_advance (h : Sound L cur s owner) (child : ℕ) (hpid : pid < maxProc) (hn : n ≤ kstackPages) :
    Ensures (freeKstack (kstackVa pid) n s) fun t => Advance L cur child ∅ s t ∧
      ∀ pid' < maxProc, ∀ i < 1024, t.entry (L.dir pid') i = s.entry (L.dir pid') i := by
  unfold freeKstack
  refine ensures_foldlM (I := fun t => Advance L cur child ∅ s t ∧
    ∀ pid' < maxProc, ∀ i < 1024, t.entry (L.dir pid') i = s.entry (L.dir pid') i)
    (fun f hf t ht => ?_) ⟨h.advance_refl, fun _ _ _ _ => rfl⟩
  have hf : f < kstackPages := (List.mem_range.mp hf).trans_le hn
  obtain ⟨hadvance, hpdes⟩ := ht
  obtain ⟨owner', hsound⟩ := hadvance.sound
  intro u hu
  have hnext := hsound.freePage_advance child (slot_paged hpid hf) (slot_not_scratchVa hpid hf) u hu
  obtain ⟨hfrees, -⟩ := hsound.freePage (slot_paged hpid hf) (slot_not_scratchVa hpid hf) u hu
  refine ⟨(hadvance.trans hnext).mono (Set.union_subset subset_rfl subset_rfl), fun pid' hpid' i hi => ?_⟩
  rw [hfrees.pdes pid' hpid' i hi, hpdes pid' hpid' i hi]

theorem mapKstack_advance (h : Sound L cur s owner) (child : ℕ) (hpid : pid < maxProc) {l : List ℕ} (hl : ∀ p ∈ l, p < kstackPages) :
    Ensures (mapKstack (kstackVa pid) l s) fun r => Advance L cur child (slots pid) s r.2 := by
  induction l generalizing s owner with
  | nil => exact ensures_ok (h.advance_refl.mono (Set.empty_subset _))
  | cons p l ih =>
    have hp := hl p List.mem_cons_self
    rw [mapKstack]
    refine (h.allocPage_advance child (slot_paged hpid hp) _).bind fun r hr => ?_
    have hslot : Advance L cur child (slots pid) s r.2 :=
      hr.mono (Set.singleton_subset_iff.mpr (mem_slots hpid hp))
    obtain ⟨owner', hsound⟩ := hr.sound
    split
    · refine (freeKstack_advance hsound child hpid hp.le).bind fun t ht => ?_
      exact ensures_ok ((hslot.trans ht.1).mono (Set.union_subset subset_rfl (Set.empty_subset _)))
    · refine (ih hsound fun p' hp' => hl p' (List.mem_cons_of_mem p hp')).mono fun t ht => ?_
      exact (hslot.trans ht).mono (Set.union_subset subset_rfl subset_rfl)

/-- What a creator finds that has a pid: its directory is not the current one, and its kernel stack is not mapped. -/
structure Spawnable (L : Layout) (cur pid : ℕ) (s : PagingState) : Prop where
  sound : ∃ owner, Sound L cur s owner
  window : Present (s.entry (L.dir cur) 1023)
  lt : pid < maxProc
  ne_zero : pid ≠ 0
  other : pid ≠ cur
  slots : SlotsFree L cur pid s

/-- The size of the image is one that `spawn_user` accepts. -/
def SpawnKind.Sized : SpawnKind → Prop
  | .user _ size => 0 < size ∧ size ≤ pageSize
  | _ => True

/-- What an attempt that failed leaves behind in the frames `T`, and of the entries `E` of the scratch pages. -/
def SpawnKind.Left (L : Layout) (pid : ℕ) (u : PagingState) (E : Set ℕ) (T : Finset ℕ) : SpawnKind → Prop
  | .kthread => False
  | .user _ _ => ∀ x, FrameBelow u (L.dir pid) 768 x ↔ x ∈ T
  | .fork => Full u ∧ (T = ∅ → E = ∅)

/-- The directory is filled: with the kernel stack mapped since `b`, the calls go on in `u`. -/
structure Opened (L : Layout) (cur pid K : ℕ) (k : ℕ → ℕ) (b u : PagingState) : Prop where
  desk : Desk L cur pid K u
  stacked : Stacked L pid K ∅ k {k 1, k 0} b u
  empty : ∀ p, 0 < p → p < 768 → ¬Present (u.entry (L.dir pid) p)

theorem Stacked.desk (h : Stacked L pid K E k T b u) (hb : Sound L cur b owner) (hd : Tabled (L.dir cur) K kstackPdeIndex b)
    (hu : ∃ owner, Sound L cur u owner) (hpid : pid < maxProc) (hother : pid ≠ cur) : Desk L cur pid K u := by
  have hdir : L.dir cur ≠ L.dir pid := fun he => hother (dir_inj he).symm
  have hin := hb.owned.reserved _ (dir_lt (L := L) hb.cur_lt)
  have hsame : ∀ i < 1024, u.entry (L.dir cur) i = b.entry (L.dir cur) i := fun i hi =>
    h.touched.entry hin (Aside.out ⟨hin, hdir, hd.apart.symm⟩) hi
  refine ⟨hu, ?_, ?_, ?_, hpid, hother⟩
  · rw [hsame 1023 (by decide)]
    exact hd.window.present
  · rw [hsame _ (by decide)]
    exact hd.present
  · rw [hsame _ (by decide)]
    exact hd.table

theorem Stacked.procInit (h : Stacked L pid K ∅ k {k 1, k 0} b t) (hb : Sound L cur b owner)
    (hd : Tabled (L.dir cur) K kstackPdeIndex b) (ht : ∃ owner, Sound L cur t owner) (hpid : pid < maxProc)
    (hne : pid ≠ 0) (hother : pid ≠ cur) : Opened L cur pid K k b (pagingProcInit L pid t) := by
  have hKfree := Owned.owner_ne_free (tabled_owner hb hd)
  have hw := pagingProcInit_within L pid t
  have htouched : Touched {K, L.dir pid} ∅ t (pagingProcInit L pid t) :=
    (Touched.refl _ t).and_then (Touched.of_within hw) (by simp)
  have hinit : Stacked L pid K (∅ ∪ ∅) k ({k 1, k 0} ∪ ∅) b (pagingProcInit L pid t) := h.and_then htouched
    (fun j hj _ => hw.entry (hb.owned.ne_dir hKfree hpid) hj) (.procInit hpid hne) hpid (fun _ _ => Set.notMem_empty _)
  rw [Set.union_empty, Finset.union_empty] at hinit
  obtain ⟨owner', ht⟩ := ht
  exact ⟨hinit.desk hb hd ⟨owner', ht.procInit hpid⟩ hpid hother, hinit, pagingProcInit_absent L pid t⟩

/-- The user half, of whatever kind. -/
theorem Opened.load (h : Opened L cur pid K k b u) (hsized : kind.Sized) :
    Ensures (kind.load L pid u) fun r => Advance L cur maxProc ∅ u r.2 ∧
      ∃ E T, E ⊆ scratchEntries ∧ Stacked L pid K E k ({k 1, k 0} ∪ T) b r.2 ∧ Disjoint {k 1, k 0} T ∧
        (r.1 = false → kind.Left L pid r.2 E T) := by
  obtain ⟨owner, hs⟩ := h.desk.sound
  -- the stores of all kinds go to the same frames
  have hstacked : ∀ {v : PagingState} {E : Set ℕ} {T : Finset ℕ}, E ⊆ scratchEntries → Touched {K, L.dir pid} T u v →
      (∀ j < 1024, j ∉ E → v.entry K j = u.entry K j) → KernelFrom L u v →
      E ⊆ scratchEntries ∧ Stacked L pid K E k ({k 1, k 0} ∪ T) b v ∧ Disjoint {k 1, k 0} T := by
    intro v E T hE htouched hkept hkernel
    have hnext : Stacked L pid K (∅ ∪ E) k ({k 1, k 0} ∪ T) b v :=
      h.stacked.and_then htouched hkept hkernel h.desk.lt fun p hp hin => slot_not_scratch h.desk.lt hp (hE hin)
    rw [Set.empty_union] at hnext
    exact ⟨hE, hnext, h.stacked.touched.disjoint htouched⟩
  have hscratch : ∀ {v : PagingState}, ScratchOnly K u v → ∀ j < 1024, j ∉ scratchEntries → v.entry K j = u.entry K j :=
    fun hv => Desk.scratchOnly_entry hv
  cases kind with
  | kthread =>
    obtain ⟨hE, hall, hdisjoint⟩ := hstacked (Set.empty_subset _) (.refl _ u) (fun _ _ _ => rfl) (.of_same fun _ _ _ _ => rfl)
    exact ensures_ok ⟨hs.advance_refl, ∅, ∅, hE, hall, hdisjoint, nofun⟩
  | user function size =>
    have hload : Meets _ (pagingLoadUserImage L pid function size u) _ :=
      h.desk.loadUserImage h.empty hsized.1 hsized.2
    refine hload.1.mono fun r hr => ?_
    obtain ⟨hadvance, hkernel, T, hloaded, -⟩ := hr
    obtain ⟨hE, hall, hdisjoint⟩ := hstacked subset_rfl hloaded.touched (hscratch hloaded.scratch) hkernel
    exact ⟨hadvance, _, T, hE, hall, hdisjoint, fun _ => hloaded.frames⟩
  | fork =>
    obtain ⟨r, hr, hadvance, hkernel, hcopied⟩ := h.desk.forkCopy h.empty
    intro r' hr'
    obtain rfl := Except.ok.inj (hr.symm.trans hr')
    split at hcopied
    · rename_i hdone
      obtain ⟨T, hcopied⟩ := hcopied
      obtain ⟨hE, hall, hdisjoint⟩ := hstacked subset_rfl hcopied.touched (hscratch hcopied.scratch) hkernel
      exact ⟨hadvance, _, T, hE, hall, hdisjoint, fun hfail => absurd hdone (by rw [hfail]; exact Bool.false_ne_true)⟩
    · rename_i hfail
      obtain ⟨T, hgave⟩ := hcopied
      by_cases hT : T = ∅
      · -- there was no frame for the first page table
        have hfull : Full u := by
          rw [full_iff, ← hgave.card_eq, hT, Finset.card_empty]
        have hwithin := h.desk.forkCopy_full hfull r hr (eq_false_of_ne_true hfail)
        have hKdir : K ≠ L.dir pid := h.desk.site.child.2.symm
        obtain ⟨hE, hall, hdisjoint⟩ := hstacked (Set.empty_subset _) hgave.touched (fun j hj _ => hwithin.entry hKdir hj) hkernel
        exact ⟨hadvance, ∅, T, hE, hall, hdisjoint, fun _ => ⟨hgave.full, fun _ => rfl⟩⟩
      · obtain ⟨hE, hall, hdisjoint⟩ := hstacked subset_rfl hgave.touched (hscratch hgave.scratch) hkernel
        exact ⟨hadvance, _, T, hE, hall, hdisjoint, fun _ => ⟨hgave.full, fun hc => absurd hc hT⟩⟩

/-! ### A user half that could not be completed -/

/-- The teardown of a directory gives back the frames of its user half, where all of them were taken. -/
theorem touched_tornDown {W : Set ℕ} {D : Finset ℕ} {dc n : ℕ} (h : Touched W T s t) (hu : TornDown dc K n t u) (hK : K ∈ W)
    (hdc : dc ∈ W) (hD : ∀ x, FrameBelow t dc n x ↔ x ∈ D) (hsub : D ⊆ T) : Touched W (T \ D) s u := by
  refine ⟨hu.cr3.trans h.cr3, fun f => ?_, fun f hf => h.fresh f (Finset.mem_sdiff.mp hf).1, fun a ha hout => ?_⟩
  · rw [Bool.eq_iff_iff, hu.bitmap f, h.bitmap, hD f, Bool.or_eq_true, Bool.or_eq_true, decide_eq_true_iff,
      decide_eq_true_iff, Finset.mem_sdiff]
    constructor
    · rintro ⟨hs | hT, hnot⟩
      · exact .inl hs
      · exact .inr ⟨hT, hnot⟩
    · rintro (hs | ⟨hT, hnot⟩)
      · exact ⟨.inl hs, fun hf => h.not_mem hs (hsub hf)⟩
      · exact ⟨.inr hT, hnot⟩
  · have hkept : u.mem a = t.mem a := hu.kept a (fun he => hout (he ▸ hK)) fun he => hout (he ▸ hdc)
    rw [hkept, h.kept a ha hout]

/-- A user half is the same as long as its tables are. -/
theorem frameBelow_congr {dc n x : ℕ} (hdir : ∀ i < n, t.entry dc i = s.entry dc i)
    (htable : ∀ p, 0 < p → p < n → Present (s.entry dc p) → ∀ q < 1024,
      t.entry (s.entry dc p / 4096) q = s.entry (s.entry dc p / 4096) q) :
    FrameBelow t dc n x ↔ FrameBelow s dc n x := by
  refine exists_congr fun p => and_congr_right fun hp => and_congr_right fun hp' => ?_
  rw [hdir p hp']
  refine and_congr_right fun hpresent => or_congr_right (exists_congr fun q => and_congr_right fun hq => ?_)
  rw [htable p hp hp' hpresent q hq]

/-- The pages of the kernel stack are unmapped and their frames given back. -/
theorem Stacked.undo (h : Stacked L pid K E k ({k 1, k 0} ∪ T) b u) (hdisjoint : Disjoint {k 1, k 0} T)
    (hdesk : Desk L cur pid K u) (hb : Sound L cur b owner) (hslots : ∀ p < kstackPages, ¬Present (b.entry K (2 * pid + p))) :
    Returns (TaskMemory.freeKstack (kstackVa pid) kstackPages u) fun v =>
      Restored L pid K E T b v ∧ Desk L cur pid K v ∧ ∀ f, f ≠ K → ∀ j < 1024, v.entry f j = u.entry f j := by
  obtain ⟨owner', hu⟩ := hdesk.sound
  have hKdir : ∀ pid' < maxProc, L.dir pid' ≠ K := fun pid' hpid' =>
    (hu.owned.ne_dir (Owned.owner_ne_free (hdesk.owner_table hu)) hpid').symm
  have hbench := hdesk.site.bench
  have htabled : Tabled (L.dir cur) K kstackPdeIndex u := ⟨hbench.window, hbench.present, hbench.table, hbench.apart⟩
  refine ((h.freeKstack htabled hdesk.lt hb.owned.reserved).and_ensures
    (freeKstack_advance hu pid hdesk.lt le_rfl)).mono fun v hv => ?_
  obtain ⟨⟨⟨w, hout₀, hout₁⟩, htouched⟩, hadvance, -⟩ := hv
  have hsame : ∀ f, f ≠ K → ∀ j < 1024, v.entry f j = u.entry f j := by
    intro f hf j hj
    rw [entry_congr hout₁.mem hf hj, entry_congr hout₀.mem hf hj]
  have hleft : (({k 1, k 0} ∪ T).erase (k 0)).erase (k 1) = T := by
    ext x
    have hx : x ∈ T → x ≠ k 1 ∧ x ≠ k 0 := by
      intro hT
      refine ⟨?_, ?_⟩
      · rintro rfl
        exact Finset.disjoint_left.mp hdisjoint (by simp) hT
      · rintro rfl
        exact Finset.disjoint_left.mp hdisjoint (by simp) hT
    simp only [Finset.mem_erase, Finset.mem_union, Finset.mem_insert, Finset.mem_singleton]
    tauto
  rw [hleft] at htouched
  refine ⟨⟨htouched, fun j hj hns => ?_, h.kernel.trans (.of_same fun pid' hpid' i hi => hsame _ (hKdir pid' hpid') i hi)⟩,
    hdesk.of_sound hadvance.sound fun i hi => hsame _ (hKdir cur hdesk.cur_lt) i hi, hsame⟩
  by_cases hslot : ∃ p < kstackPages, j = 2 * pid + p
  · right
    obtain ⟨p, hp, rfl⟩ := hslot
    refine ⟨?_, hslots p hp⟩
    have hp01 : p = 0 ∨ p = 1 := by
      simp only [kstackPages] at hp
      omega
    rcases hp01 with rfl | rfl
    · rw [hout₁.others _ hj (by omega), Nat.add_zero, hout₀.entry]
      decide
    · rw [hout₁.entry]
      decide
  · left
    have hne : ∀ p < kstackPages, j ≠ 2 * pid + p := fun p hp he => hslot ⟨p, hp, he⟩
    rw [hout₁.others j hj (hne 1 (by decide)), hout₀.others j hj (hne 0 (by decide))]
    exact h.others j hj hns hne

/-- What a creator leaves that could not furnish its task. In `b` there is the page table of the kernel stacks; since
then the frames `T` were taken: by `task_fork` all that it found behind the kernel stack, by the others none. -/
structure Undone (L : Layout) (cur pid K : ℕ) (kind : SpawnKind) (E : Set ℕ) (T : Finset ℕ) (s b t : PagingState) : Prop where
  made : TableMade L cur kstackPdeIndex s b
  tabled : Tabled (L.dir cur) K kstackPdeIndex b
  restored : Restored L pid K E T b t
  sound : ∃ owner, Sound L cur t owner
  scratch : E ⊆ scratchEntries
  all : kind ≠ .fork → T = ∅
  taken : kind = .fork → T.card = physFreeCount b.bitmap - kstackPages ∧ (T = ∅ → E = ∅)

theorem Opened.fails {r : Bool × PagingState} (hmade : TableMade L cur kstackPdeIndex s b)
    (htabled : Tabled (L.dir cur) K kstackPdeIndex b) (hslots : SlotsFree L cur pid s) (hdesk : Desk L cur pid K r.2)
    (h : Stacked L pid K E k ({k 1, k 0} ∪ T) b r.2) (hdisjoint : Disjoint {k 1, k 0} T)
    (hE : E ⊆ scratchEntries) (hleft : kind.Left L pid r.2 E T) :
    Returns (freeKstack (kstackVa pid) kstackPages r.2 >>= fun s => kind.unload L pid s) fun t =>
      ∃ E' T', Undone L cur pid K kind E' T' s b t := by
  obtain ⟨owner, hb⟩ := hmade.sound
  have hlt : ∀ p < kstackPages, 2 * pid + p < 1024 := by
    intro p hp
    have := hdesk.lt
    simp only [maxProc, kstackPages] at *
    omega
  have hbslots : ∀ p < kstackPages, ¬Present (b.entry K (2 * pid + p)) := by
    intro p hp hpresent
    refine mt (hmade.maps _ _ (by decide) (by decide) (hlt p hp)).mp (hslots p hp) ⟨htabled.present, ?_⟩
    rw [htabled.table]
    exact hpresent
  refine (h.undo hdisjoint hdesk hb hbslots).bind fun v hv => ?_
  obtain ⟨hrestored, hdesk', hsame⟩ := hv
  cases kind with
  | kthread => exact hleft.elim
  | fork =>
    have hpair : ({k 1, k 0} : Finset ℕ).card = 2 := Finset.card_pair h.apart.symm
    have hcount := h.touched.freeCount
    rw [full_iff.mp hleft.1, Finset.card_union_of_disjoint hdisjoint, hpair] at hcount
    refine returns_ok ⟨E, T, hmade, htabled, hrestored, hdesk'.sound, hE, fun hne => absurd rfl hne, fun _ => ⟨?_, hleft.2⟩⟩
    simp only [kstackPages]
    omega
  | user function size =>
    refine hdesk'.procTeardown.mono fun t ht => ?_
    obtain ⟨hadvance, hkernel, htorn⟩ := ht
    have hused : InUse b K := by
      have hK := tabled_owner hb htabled
      exact (hb.owned.used K (Owned.owner_ne_free hK)).2.2
    -- the tables of the user half are none of those that the kernel stack is unmapped from
    have hframes : ∀ x, FrameBelow v (L.dir pid) 768 x ↔ x ∈ T := by
      intro x
      refine Iff.trans (frameBelow_congr (fun i hi => ?_) fun p hp hp' hpresent q hq => ?_) (hleft x)
      · exact hsame _ hdesk.site.child.2 i (by omega)
      · refine hsame _ ?_ q hq
        rintro he
        have hT : K ∈ T := (hleft K).mp ⟨p, hp, hp', hpresent, .inl he⟩
        exact h.touched.not_mem hused (Finset.mem_union_right _ hT)
    have htouched := touched_tornDown hrestored.touched htorn (by simp) (by simp) hframes (Finset.Subset.refl T)
    rw [Finset.sdiff_self] at htouched
    refine ⟨scratchEntries, ∅, hmade, htabled, ⟨htouched, fun j hj hns => ?_, hrestored.kernel.trans hkernel⟩, hadvance.sound,
      subset_rfl, fun _ => rfl, nofun⟩
    rw [Desk.scratchOnly_entry htorn.scratch j hj hns]
    exact hrestored.entry j hj fun hin => hns (hE hin)

/-- A creator that fails undoes what it has done, where it undoes the user half. -/
theorem Spawnable.furnish_fails (h : Spawnable L cur pid s) (hsized : kind.Sized) :
    Ensures (furnish L pid kind s) fun r => r.1.2 = false →
      SameBits s r.2 ∧ (Present (s.entry (L.dir cur) kstackPdeIndex) → Full s) ∨
      ∃ b K E T, Undone L cur pid K kind E T s b r.2 := by
  obtain ⟨owner, hs⟩ := h.sound
  unfold furnish
  have hmapped := (mapKstack_returns hs (hs.homed.window h.window) h.lt h.slots).and_ensures
    (mapKstack_advance hs pid h.lt fun p hp => List.mem_range.mp hp)
  have hmapped : Meets True _ _ := hmapped.meets
  refine hmapped.1.bind fun r hr => ?_
  obtain ⟨a, t⟩ := r
  obtain ⟨hmapped, hadvance⟩ := hr
  rcases hmapped with ⟨rfl, hsame, hfull⟩ | ⟨b, K, hmade, htabled, ⟨rfl, hrestored, hfew⟩ | ⟨rfl, k, hstacked⟩⟩
  · exact ensures_ok fun _ => .inl ⟨hsame, hfull⟩
  · refine ensures_ok fun _ => .inr ⟨b, K, ∅, ∅, hmade, htabled, hrestored, hadvance.sound, Set.empty_subset _, fun _ => rfl,
      fun _ => ⟨?_, fun _ => rfl⟩⟩
    rw [Finset.card_empty, kstackPages]
    omega
  · obtain ⟨ownerb, hb⟩ := hmade.sound
    have hopened := hstacked.procInit hb htabled hadvance.sound h.lt h.ne_zero h.other
    refine (hopened.load hsized).bind fun r hr => ?_
    obtain ⟨ok, u⟩ := r
    obtain ⟨hload, E, T, hE, hstacked', hdisjoint, hleft⟩ := hr
    cases ok with
    | true => exact ensures_ok nofun
    | false =>
      have hdesk := hstacked'.desk hb htabled hload.sound h.lt h.other
      obtain ⟨v, hv, E', T', hundone⟩ := Opened.fails hmade htabled h.slots hdesk hstacked' hdisjoint hE (hleft rfl)
      obtain ⟨w, hw, hv⟩ := bind_eq_ok.mp hv
      change Ensures (TaskMemory.freeKstack (kstackVa pid) kstackPages u >>= fun s => kind.unload L pid s >>= fun s =>
        .ok ((kstackPages, false), s)) _
      rw [hw, ok_bind, hv, ok_bind]
      exact ensures_ok fun _ => .inr ⟨b, K, E', T', hundone⟩

/-! ### What the next calls find -/

/-- The directory of `pid` is open to the kernel, and has the page table of the kernel stacks. -/
structure Housed (L : Layout) (pid : ℕ) (s : PagingState) : Prop where
  window : Present (s.entry (L.dir pid) 1023)
  kstack : Present (s.entry (L.dir pid) kstackPdeIndex)

theorem Housed.advance (h : Housed L pid s) {child : ℕ} {A : Set (ℕ × ℕ)} (hpid : pid < maxProc) (hne : pid ≠ child)
    (ht : Advance L cur child A s t) : Housed L pid t :=
  ⟨ht.upper pid hpid hne _ (by decide) (by decide) h.window, ht.upper pid hpid hne _ (by decide) (by decide) h.kstack⟩

theorem housed_procInit (hpid : pid < maxProc) (hne : pid ≠ 0) (hzero : Present (s.entry (L.dir 0) kstackPdeIndex)) :
    Housed L pid (pagingProcInit L pid s) := by
  refine ⟨?_, ?_⟩
  · rw [pagingProcInit_entry hpid hne (by decide), if_pos rfl, procEntry, if_pos rfl]
    exact (points_dir hpid).present
  · rw [pagingProcInit_entry hpid hne (by decide), if_pos rfl, procEntry, if_neg (by decide), if_pos (.inl (by decide))]
    exact hzero

theorem unload_advance (hdesk : Desk L cur pid K s) :
    Ensures (kind.unload L pid s) (Advance L cur pid ∅ s) := by
  obtain ⟨owner, hs⟩ := hdesk.sound
  cases kind with
  | kthread => exact ensures_ok hs.advance_refl
  | fork => exact ensures_ok hs.advance_refl
  | user function size =>
    have hteardown : Meets True (pagingProcTeardown L pid s) _ := hdesk.procTeardown.meets
    exact hteardown.1.mono fun t ht => ht.1.weaken

/-- Whether the creator fails or not, nothing is mapped but its kernel stack. -/
theorem Spawnable.furnish_advance (h : Spawnable L cur pid s) (hsized : kind.Sized)
    (hzero : cur ≠ 0 → Present (s.entry (L.dir 0) kstackPdeIndex)) :
    Ensures (furnish L pid kind s) fun r => Advance L cur pid (TaskMemory.slots pid) s r.2 ∧
      (r.1.2 = true → Housed L pid r.2 ∧ Present (r.2.entry (L.dir 0) kstackPdeIndex)) := by
  obtain ⟨owner, hs⟩ := h.sound
  have hmapped := mapKstack_returns hs (hs.homed.window h.window) h.lt h.slots
  have hrange : ∀ p ∈ List.range kstackPages, p < kstackPages := fun p hp => List.mem_range.mp hp
  unfold furnish
  have hmapped := hmapped.and_ensures (mapKstack_advance hs pid h.lt hrange)
  have hmapped : Meets True _ _ := hmapped.meets
  refine hmapped.1.bind fun r hr => ?_
  obtain ⟨a, t⟩ := r
  obtain ⟨hmapped, hadvance⟩ := hr
  rcases hmapped with ⟨rfl, -, -⟩ | ⟨b, K, hmade, htabled, ⟨rfl, -, -⟩ | ⟨rfl, k, hstacked⟩⟩
  · exact ensures_ok ⟨hadvance, nofun⟩
  · exact ensures_ok ⟨hadvance, nofun⟩
  obtain ⟨ownerb, hb⟩ := hmade.sound
  have hopened := hstacked.procInit hb htabled hadvance.sound h.lt h.ne_zero h.other
  obtain ⟨ownert, ht⟩ := hadvance.sound
  have hinit : Advance L cur pid (TaskMemory.slots pid) s (pagingProcInit L pid t) :=
    (hadvance.trans (ht.procInit_advance h.lt)).mono (Set.union_subset subset_rfl (Set.empty_subset _))
  have hzero' : Present ((pagingProcInit L pid t).entry (L.dir 0) kstackPdeIndex) := by
    by_cases hcur : cur = 0
    · subst hcur
      exact hopened.desk.kstack
    · exact hinit.upper 0 (by decide) h.ne_zero.symm _ (by decide) (by decide) (hzero hcur)
  have hhoused : Housed L pid (pagingProcInit L pid t) := by
    refine housed_procInit h.lt h.ne_zero ?_
    rw [← (pagingProcInit_within L pid t).entry (fun he => h.ne_zero (dir_inj he).symm) (by decide)]
    exact hzero'
  refine (hopened.load hsized).bind fun r hr => ?_
  obtain ⟨ok, u⟩ := r
  obtain ⟨hload, E, T, -, hstacked', -, -⟩ := hr
  have hthen : ∀ {v}, Advance L cur pid ∅ u v → Advance L cur pid (TaskMemory.slots pid) s v := fun hv =>
    ((hinit.trans hload.weaken).trans hv).mono
      (Set.union_subset (Set.union_subset subset_rfl (Set.empty_subset _)) (Set.empty_subset _))
  obtain ⟨owneru, hu⟩ := hload.sound
  cases ok with
  | true =>
    exact ensures_ok ⟨hthen hu.advance_refl, fun _ => ⟨hhoused.advance h.lt h.lt.ne hload,
      hload.upper 0 (by decide) (by decide) _ (by decide) (by decide) hzero'⟩⟩
  | false =>
    have hdesk := hstacked'.desk hb htabled hload.sound h.lt h.other
    refine (freeKstack_advance hu pid h.lt le_rfl).bind fun v hv => ?_
    obtain ⟨hfreed, hpdes⟩ := hv
    have hdesk' := hdesk.of_sound hfreed.sound fun i hi => hpdes cur hdesk.cur_lt i hi
    refine (unload_advance hdesk').bind fun w hw => ensures_ok ⟨hthen ((hfreed.trans hw).mono ?_), nofun⟩
    exact Set.union_subset subset_rfl subset_rfl

end HekaOS.TaskMemory
