import HekaOS.DirectorySetup
import HekaOS.TransitionSystem

/-!
# No frame serves twice

Runs of the calls of `paging.c` from boot, under whichever directory is current. A frame that an
entry leads to is marked in the bitmap, and no other entry leads to it.
-/

namespace HekaOS.Paging
open MachineWord KernelMemory KernelTriples ByteMemory PageWalk WordBitmap PhysPageFrame AddressMap
open TransitionSystem
open Tasks (maxProc pageSize)

variable {L : Layout} {s t : PagingState} {owner : ℕ → Owner} {cur child f i j K pid va flags : ℕ}

/-- What the callers of `paging.c` see to before they work on another process. -/
structure Foreign (L : Layout) (pid : ℕ) (s : PagingState) : Prop where
  lt : pid < maxProc
  ne_zero : pid ≠ 0
  other : s.cr3 ≠ L.pageDirectory pid
  kstack : Present (load32 s.mem (s.cr3 + 4 * kstackPdeIndex))

/-- The calls that return. -/
inductive PagingStep (L : Layout) (s : PagingState) : PagingState → Prop where
  | allocPage {va flags : ℕ} {r : ℕ × PagingState} (hva : Paged va) (hscratch : ¬ScratchVa va)
      (hunmapped : ¬Mapped s.mem s.cr3 va) (hok : allocPage va flags s = .ok r) : PagingStep L s r.2
  | freePage {va : ℕ} {t : PagingState} (hva : Paged va) (hscratch : ¬ScratchVa va) (hok : freePage va s = .ok t) :
      PagingStep L s t
  | procSwitch {pid : ℕ} (hpid : pid < maxProc) : PagingStep L s (pagingProcSwitch L pid s)
  | procInit {pid : ℕ} (h : Foreign L pid s) : PagingStep L s (pagingProcInit L pid s)
  | loadUserImage {pid src size : ℕ} {r : Bool × PagingState} (h : Foreign L pid s)
      (hok : pagingLoadUserImage L pid src size s = .ok r) : PagingStep L s r.2
  | forkCopy {childPid : ℕ} {r : Bool × PagingState} (h : Foreign L childPid s)
      (hok : pagingForkCopy L childPid s = .ok r) : PagingStep L s r.2
  | procTeardown {pid : ℕ} {t : PagingState} (h : Foreign L pid s) (hok : pagingProcTeardown L pid s = .ok t) :
      PagingStep L s t

def Booted (L : Layout) (s : PagingState) : Prop :=
  ∃ mem old, Cleared L mem ∧ s = pagingInit L mem (physMemInit old)

def PagingReachable (L : Layout) (s : PagingState) : Prop := Reachable (Booted L) (PagingStep L) s

namespace Sound

theorem kstack_present (h : Sound L cur s owner) (hf : Foreign L pid s) :
    Present (s.entry (L.dir cur) kstackPdeIndex) := by
  have hkstack := hf.kstack
  rw [h.cr3] at hkstack
  exact hkstack

/-- `paging_fork_copy` shares the page table of the kernel stacks first. -/
def shareKstack (L : Layout) (cur child : ℕ) (s : PagingState) : PagingState :=
  s.setEntry (L.dir child) kstackPdeIndex (s.entry (L.dir cur) kstackPdeIndex)

theorem shareKstack_sound (h : Sound L cur s owner) {child : ℕ} (hchild : child < maxProc) :
    Sound L cur (shareKstack L cur child s) owner := by
  refine ⟨h.owned.setPde hchild (by decide) PagingState.entry_lt fun hpresent => ?_, h.cur_lt, h.cr3⟩
  have hown := h.owned.owner_table h.cur_lt (by decide) (by decide) hpresent
  refine ⟨fun hc => absurd hc (by decide), fun hc => absurd hc (by decide), fun _ _ => ?_⟩
  rw [hown]
  exact tableOf_kernel (by decide)

theorem pagingForkCopy (h : Sound L cur s owner) (hchild : child < maxProc)
    (hkstack : Present (s.entry (L.dir cur) kstackPdeIndex)) :
    Ensures (pagingForkCopy L child s) fun r =>
      ∃ K, Ready L cur K (shareKstack L cur child s) r.2 := by
  unfold Paging.pagingForkCopy
  refine h.homed.windowed (by decide) fun hwindow => ?_
  rw [hwindow.read_pde (by decide), ok_bind]
  have hshared := h.shareKstack_sound hchild
  have hpresent : Present ((shareKstack L cur child s).entry (L.dir cur) kstackPdeIndex) := by
    unfold shareKstack
    rw [PagingState.entry_setEntry (by decide) (by decide) PagingState.entry_lt]
    split
    · exact hkstack
    · exact hkstack
  exact ((Working.start hshared hpresent).forkTables hchild).mono fun r hr => ⟨_, hr⟩

end Sound

/-- The ledger covers the tables, under some directory. -/
def Covered (L : Layout) (s : PagingState) : Prop := ∃ cur owner, Sound L cur s owner

theorem Ready.covered {base : PagingState} (h : Ready L cur K base s) : Covered L s := by
  obtain ⟨owner, h⟩ := h
  exact ⟨cur, owner, h.toSound⟩

theorem PagingStep.covered (hs : Covered L s) (hstep : PagingStep L s t) : Covered L t := by
  obtain ⟨cur, owner, hs⟩ := hs
  cases hstep with
  | allocPage hva hscratch hunmapped hok =>
    obtain ⟨-, owner', ht⟩ := hs.allocPage hva _ _ hok
    exact ⟨cur, owner', ht⟩
  | freePage hva hscratch hok =>
    obtain ⟨-, owner', ht⟩ := hs.freePage hva hscratch _ hok
    exact ⟨cur, owner', ht⟩
  | procSwitch hpid => exact ⟨_, owner, hs.owned, hpid, rfl⟩
  | procInit h => exact ⟨cur, owner, hs.procInit h.lt⟩
  | loadUserImage h hok =>
    exact ((Working.start hs (hs.kstack_present h)).pagingLoadUserImage h.lt _ _ _ hok).covered
  | forkCopy h hok =>
    obtain ⟨K, hr⟩ := hs.pagingForkCopy h.lt (hs.kstack_present h) _ hok
    exact hr.covered
  | procTeardown h hok =>
    exact ((Working.start hs (hs.kstack_present h)).pagingProcTeardown h.lt _ hok).covered

theorem PagingReachable.covered (hs : PagingReachable L s) : Covered L s := by
  refine Reachable.invariant (I := Covered L) ?_ (fun s t => PagingStep.covered) hs
  rintro s ⟨mem, old, hmem, rfl⟩
  exact ⟨0, _, sound_pagingInit hmem old⟩

/-- An entry that may lead to a frame. The kernel half of all directories counts once: there
an entry is known by its index. -/
inductive Reference where
  | pde (space : Option ℕ) (i : ℕ)
  | pte (K j : ℕ)
  deriving DecidableEq

/-- The present entries that lead to a frame, but for the recursive ones and the scratch pages. -/
inductive Refers (L : Layout) (s : PagingState) (f : ℕ) : Reference → Prop where
  | pde {pid i : ℕ} (hpid : pid < maxProc) (hi : i < 1023) (hpresent : Present (s.entry (L.dir pid) i))
      (hf : s.entry (L.dir pid) i / 4096 = f) : Refers L s f (.pde (if i < 768 then some pid else none) i)
  | pte {pid i j : ℕ} (hpid : pid < maxProc) (hi : i < 1023) (hpde : Present (s.entry (L.dir pid) i))
      (hj : j < 1024) (hscratch : ¬Scratch i j) (hpresent : Present (s.entry (s.entry (L.dir pid) i / 4096) j))
      (hf : s.entry (s.entry (L.dir pid) i / 4096) j / 4096 = f) :
      Refers L s f (.pte (s.entry (L.dir pid) i / 4096) j)

/-- The owner that the ledger names for the frame behind an entry. -/
def Reference.served : Reference → Owner
  | .pde space i => .table i (space.getD 0)
  | .pte K j => .page K j

theorem Reference.served_ne_free {r : Reference} (h : owner f = r.served) : owner f ≠ .free := by
  cases r with
  | pde space i => exact Owned.table_ne_free h
  | pte K j => exact Owned.page_ne_free h

namespace Sound

theorem owner_of_refers {r : Reference} (h : Sound L cur s owner) (hf : reservedFrames ≤ f) (hr : Refers L s f r) :
    owner f = r.served := by
  cases hr with
  | @pde pid i hpid hi hpresent hf' =>
    have hleads := h.owned.pde pid hpid i (by omega) hpresent
    rw [hf'] at hleads
    have hpos : 0 < i := by
      rcases Nat.eq_zero_or_pos i with h0 | hpos
      · have hfpt := hleads.first h0
        have hlow := L.fpt_low
        omega
      · exact hpos
    rw [hleads.table hpos hi]
    unfold tableOf Reference.served
    split
    · rfl
    · rfl
  | @pte pid i j hpid hi hpde hj hscratch hpresent hf' =>
    have hleads := h.owned.pde pid hpid i (by omega) hpde
    have hpos : 0 < i := by
      rcases Nat.eq_zero_or_pos i with h0 | hpos
      · have hlow := h.owned.fpt j hj
        rw [hleads.first h0] at hf'
        omega
      · exact hpos
    have hpage := h.owned.pte _ i _ (hleads.table hpos hi) j hj hscratch hpresent
    rw [hf'] at hpage
    exact hpage

/-- The owner tells the entry. -/
theorem refers_unique {r r' : Reference} (h : Sound L cur s owner) (hf : reservedFrames ≤ f) (hr : Refers L s f r)
    (hr' : Refers L s f r') : r' = r := by
  have hown := h.owner_of_refers hf hr
  have hown' := h.owner_of_refers hf hr'
  rw [hown] at hown'
  cases hr with
  | @pde pid i hpid hi hpresent hf' =>
    cases hr' with
    | @pde pid' i' hpid' hi' hpresent' hf'' =>
      obtain ⟨rfl, hspace⟩ := Owner.table.inj hown'
      by_cases huser : i < 768
      · simp only [huser, ↓reduceIte, Option.getD_some] at hspace ⊢
        rw [hspace]
      · simp only [huser, ↓reduceIte]
    | pte => exact nomatch hown'
  | pte =>
    cases hr' with
    | pde => exact nomatch hown'
    | pte =>
      obtain ⟨hK, hj⟩ := Owner.page.inj hown'
      rw [hK, hj]

theorem refers_once {r : Reference} (h : Sound L cur s owner) (hf : reservedFrames ≤ f) (hr : Refers L s f r) :
    bitmapTest s.bitmap f = true ∧ ∃! r, Refers L s f r := by
  have hown := h.owner_of_refers hf hr
  exact ⟨(h.owned.used f (Reference.served_ne_free hown)).2.2, r, hr, fun r' hr' => h.refers_unique hf hr hr'⟩

end Sound

/-- In every state that the calls reach, a frame above the reserved ones that an entry leads to is
in use, and exactly one entry leads to it. -/
theorem frame_exclusivity (L : Layout) (s : PagingState) (hs : PagingReachable L s) (f : ℕ) (hf : 1024 ≤ f)
    (href : ∃ r, Refers L s f r) : bitmapTest s.bitmap f = true ∧ ∃! r, Refers L s f r := by
  obtain ⟨cur, owner, h⟩ := hs.covered
  obtain ⟨r, hr⟩ := href
  exact h.refers_once hf hr

/-- A layout as the linker makes it. -/
def sampleLayout : Layout where
  dirFrame := 512
  fptFrame := 640
  own a := 0x300000 ≤ a ∧ a < 0x300800
  ownByte bitmap _ a := (bitmap ((a - 0x300000) / 4)).toNat / 256 ^ (a % 4)
  dir_low := by decide
  fpt_low := by decide
  apart := .inr (by decide)

def bootState : PagingState := pagingInit sampleLayout (fun _ => 0) (physMemInit fun _ => 0)

theorem bootState_booted : Booted sampleLayout bootState := ⟨fun _ => 0, fun _ => 0, fun _ _ _ _ => rfl, rfl⟩

theorem bootState_sound : Sound sampleLayout 0 bootState fun _ => .free :=
  sound_pagingInit (fun _ _ _ _ => rfl) _

theorem bootState_entry {j : ℕ} (hj : j < 1024) :
    bootState.entry (sampleLayout.dir 0) j = bootEntry sampleLayout (fun _ => 0) (sampleLayout.dir 0) j :=
  pagingInit_entry hj

theorem bootState_window : Window bootState (sampleLayout.dir 0) := by
  apply bootState_sound.homed.window
  rw [bootState_entry (by decide)]
  decide

theorem bootState_clear (hf : 1024 ≤ f) (hf' : f < physTotalFrames) : NewFrame bootState.bitmap f := by
  refine ⟨hf', ?_⟩
  have hinit := represents_init fun _ => 0
  have hbit := mt (hinit.bit f hf').mp (not_or.mpr ⟨Nat.not_lt.mpr hf, Finset.notMem_empty f⟩)
  rw [bootState, pagingInit_bitmap]
  exact eq_false_of_ne_true hbit

/-- At boot all frames above the reserved ones are free. -/
theorem bootState_spare : Spare bootState.bitmap 15360 := by
  refine ⟨Finset.Ico 1024 16384, ?_, fun f hf => ?_⟩
  · rw [Nat.card_Ico]
  · obtain ⟨hlow, hlt⟩ := Finset.mem_Ico.mp hf
    exact bootState_clear hlow hlt

theorem bootState_absent (hi : i < 1024) (h0 : i ≠ 0) (hlast : i ≠ 1023) :
    ¬Present (bootState.entry (sampleLayout.dir 0) i) := by
  rw [bootState_entry hi, bootEntry, if_pos rfl, if_neg hlast, if_neg h0]
  decide

/-- After an `alloc_page` in the kernel half, its page and its page table are behind one entry each. -/
theorem frame_exclusivity_alloc : ∃ s f, 1024 ≤ f ∧ (∃ r, Refers sampleLayout s f r) ∧
    bitmapTest s.bitmap f = true ∧ ∃! r, Refers sampleLayout s f r := by
  have hva : Paged 0xC0400000 := ⟨by decide, by decide, by decide⟩
  have hscratch : ¬ScratchVa 0xC0400000 := by
    rintro (hc | hc)
    · exact absurd hc (by decide)
    · exact absurd hc (by decide)
  have hunmapped : ¬Mapped bootState.mem bootState.cr3 0xC0400000 := by
    rw [mapped_iff bootState_sound.cr3]
    exact fun hmaps => bootState_absent (by decide) (by decide) (by decide) hmaps.1
  obtain ⟨t, hok, hallocs, -⟩ :=
    bootState_sound.allocPage_succeeds bootState_window hva (bootState_spare.mono (by decide)) 3
  have hreach : PagingReachable sampleLayout t :=
    .next (.start bootState_booted) (.allocPage hva hscratch hunmapped hok)
  have hmaps : Maps t (sampleLayout.dir 0) 769 0 := (hallocs.here hunmapped).mpr (show 0xC0400000 ≠ 0 by decide)
  have hrefers : Refers sampleLayout t (t.entry (sampleLayout.dir 0) 769 / 4096) (.pde none 769) :=
    .pde (show 0 < maxProc by decide) (by decide) hmaps.1 rfl
  have hlow : 1024 ≤ t.entry (sampleLayout.dir 0) 769 / 4096 := by
    obtain ⟨cur, owner, hsound⟩ := hreach.covered
    have hown := hsound.owned.owner_table (show 0 < maxProc by decide) (by decide) (by decide) hmaps.1
    exact (hsound.owned.used _ (Owned.owner_ne_free hown)).1
  exact ⟨t, _, hlow, ⟨_, hrefers⟩, frame_exclusivity sampleLayout t hreach _ hlow ⟨_, hrefers⟩⟩

end HekaOS.Paging
