import HekaOS.PageCalls

/-!
# The address spaces of processes

`paging_load_user_image`, `paging_fork_copy` and `paging_proc_teardown` keep the ledger of frames,
whether they go through or give up midway.
-/

namespace HekaOS.Paging
open MachineWord KernelMemory KernelTriples ByteMemory PageWalk WordBitmap PhysPageFrame AddressMap
open Tasks (maxProc pageSize userCodeBase userStackTop)

variable {L : Layout} {base s t : PagingState} {owner : ℕ → Owner}
  {cur child d f g i j K o p pdi pid pti q r v va : ℕ} {l : List ℕ}

theorem within_store8 (ho : o < 4096) : Within g s { s with mem := store8 s.mem (g * 4096 + o) v } := by
  refine ⟨rfl, rfl, fun a ha => Function.update_of_ne ?_ _ _⟩
  omega

/-- A loop that stores to the bytes of the frame on a page. -/
theorem Shows.fill {body : PagingState → ℕ → Kernel PagingState} (h : Shows s d K va g) (hd : d ≠ g) (hK : K ≠ g)
    (hbody : ∀ b ∈ l, ∀ t, Shows t d K va g → Ensures (body t b) fun u => Within g t u) :
    Ensures (l.foldlM body s) fun t => Within g s t := by
  have hloop : Ensures (l.foldlM body s) fun t => Within g s t ∧ Shows t d K va g := by
    refine ensures_foldlM (fun b hb t ht => ?_) ⟨.refl g s, h⟩
    refine (hbody b hb t ht.2).mono fun u hu => ?_
    exact ⟨ht.1.trans hu, ht.2.within hu hd hK⟩
  exact hloop.mono fun t ht => ht.1

theorem Shows.storeByte (h : Shows s d K va g) (ho : o < 4096) :
    Ensures (s.writeByte (va + o) v) fun t => Within g s t := by
  rw [h.writeByte_eq ho]
  exact ensures_ok (within_store8 ho)

theorem Shows.copyByte {x : Kernel ℕ} (h : Shows s d K va g) (ho : o < 4096) :
    Ensures (x >>= fun v => s.writeByte (va + o) v) fun t => Within g s t :=
  Ensures.bind (Q := fun _ => True) (fun _ _ => trivial) fun _ _ => h.storeByte ho

theorem Shows.copyPage (h : Shows s d K va g) (hd : d ≠ g) (hK : K ≠ g) (src : ℕ) :
    Ensures (copyPage src va s) fun t => Within g s t := by
  refine h.fill hd hK fun b hb t ht => ?_
  exact ht.copyByte (List.mem_range.mp hb)

theorem Shows.fillPage (h : Shows s d K forkScratchDataVa g) (hd : d ≠ g) (hK : K ≠ g) {src copySize : ℕ}
    (hsize : copySize ≤ 4096) : Ensures (fillPage L src copySize s) fun t => Within g s t := by
  unfold Paging.fillPage
  split
  · refine (h.fill hd hK fun b hb t ht => ?_).bind fun t ht => ?_
    · have := List.mem_range.mp hb
      exact ht.copyByte (by omega)
    · refine ((h.within ht hd hK).fill hd hK fun b hb u hu => hu.storeByte ?_).mono fun u hu => ht.trans hu
      have := (List.mem_range'_1.mp hb).2
      simp only [pageSize] at this
      omega
  · refine h.fill hd hK fun b hb t ht => ht.storeByte ?_
    exact List.mem_range.mp hb

/-- What stays of a call on another process: the ledger covers the tables. -/
def Ready (L : Layout) (cur K : ℕ) (base s : PagingState) : Prop := ∃ owner, Working L cur K base s owner

namespace Working

theorem tableOf_user (hpdi : pdi < 768) : tableOf pid pdi = .table pdi pid := by
  unfold tableOf
  rw [if_pos hpdi]

/-- The page table of the kernel stacks is no table of the user half. -/
theorem kstack_ne (h : Working L cur K base s owner) (hpdi : pdi < 768) (hf : owner f = .table pdi pid) : K ≠ f := by
  rintro rfl
  have hindex := (Owner.table.inj (h.owner_kstack.symm.trans hf)).1
  have : kstackPdeIndex = 956 := by decide
  omega

theorem dir_ne (h : Working L cur K base s owner) (hf : owner f ≠ .free) : L.dir cur ≠ f :=
  (h.owned.ne_dir hf h.cur_lt).symm

theorem dir_ne_of_ge (h : Working L cur K base s owner) (hlow : reservedFrames ≤ f) : L.dir cur ≠ f := fun he =>
  absurd (dir_lt (L := L) h.cur_lt) (Nat.not_lt.mpr (he ▸ hlow))

theorem kstack_ne_of_free (h : Working L cur K base s owner) (hg : owner g = .free) : K ≠ g := by
  rintro rfl
  exact h.kstack_ne_free hg

/-- A new frame is mounted and cleared to serve as a page table. -/
theorem newTable (h : Working L cur K base s owner) (hg : NewFrame s.bitmap g) (i pid flags : ℕ) :
    Ensures (mapPage (g * 4096) forkScratchPtVa flags { s with bitmap := bitmapSet s.bitmap g } >>=
        zeroTable forkScratchPtVa) fun t =>
      Working L cur K base t (Function.update owner g (.table i pid)) ∧
        Shows t (L.dir cur) K forkScratchPtVa g := by
  obtain ⟨h₁, hfree, hlow⟩ := h.alloc hg
  have hd := h.dir_ne_of_ge hlow
  have hK := h.kstack_ne_of_free hfree
  refine (h₁.mount (.inl rfl) (hg.lt.trans (by decide)) flags).bind fun t ht => ?_
  obtain ⟨hremount, hshows⟩ := ht
  have h₂ := h₁.remount (.inl rfl) hremount
  rw [hshows.zeroTable_eq hd hK]
  have hwithin : Within g t (t.clearTable g) := within_clearTable
  have h₃ := h₂.within hwithin hlow fun _ _ ho => nomatch hfree.symm.trans ho
  refine ensures_ok ⟨h₃.enter hfree hlow hg.lt ?_ fun _ _ _ j hj => ?_, hshows.within hwithin hd hK⟩
  · rw [hwithin.bitmap, hremount.within.bitmap]
    exact bitmapTest_set_self _ g
  · rw [entry_clearTable hj]
    decide

/-- An entry of the user half leads to a table that is entered for it. -/
theorem leads_user (hpdi : 0 < pdi) (hpdi' : pdi < 768) (hf : owner f = .table pdi pid) : Leads L owner pid pdi f :=
  ⟨fun h0 => absurd h0 hpdi.ne', fun h1 => absurd h1 (by omega), fun _ _ => hf.trans (tableOf_user hpdi').symm⟩

theorem userPt (h : Working L cur K base s owner) (hpid : pid < maxProc) (hpdi : 0 < pdi) (hpdi' : pdi < 768) :
    Ensures (userPt L pid pdi s) fun r => ∃ owner', Working L cur K base r.2 owner' ∧
      ∀ a, r.1 = some a → ∃ f, a = f * 4096 ∧ owner' f = .table pdi pid := by
  have hpde : load32 s.mem (L.pageDirectory pid + 4 * pdi) = s.entry (L.dir pid) pdi := rfl
  unfold Paging.userPt
  dsimp only
  rw [hpde]
  by_cases hpresent : Present (s.entry (L.dir pid) pdi)
  · rw [if_neg (mt present_iff.mp (not_not.mpr hpresent)), clearLow_entry PagingState.entry_lt]
    refine ensures_ok ⟨owner, h, fun a ha => ⟨_, (Option.some.inj ha).symm, ?_⟩⟩
    rw [h.owned.owner_table hpid hpdi (by omega) hpresent, tableOf_user hpdi']
  · rw [if_pos (present_iff.mpr hpresent)]
    rcases allocFrame_cases s.bitmap with hnull | ⟨g, hg, hr⟩
    · rw [if_pos hnull]
      exact ensures_ok ⟨owner, h, fun _ => nofun⟩
    · have hlow := h.owned.newFrame_ge hg
      rw [hr, if_neg (frame_ne_zero hlow)]
      dsimp only
      rw [← bind_assoc]
      refine (h.newTable hg pdi pid _).bind fun t ht => ?_
      obtain ⟨ht, -⟩ := ht
      refine (ht.unmount (.inl rfl)).bind fun u hu => ?_
      have hu := ht.remount (.inl rfl) hu
      have howner : Function.update owner g (.table pdi pid) g = .table pdi pid := Function.update_self _ _ _
      have hpoints : Points (g * 4096 ||| (pagePresent ||| pageRw ||| pageUser)) g :=
        points_or (hg.lt.trans (by decide)) (by decide) (by decide)
      refine ensures_ok ⟨_, ?_, fun a ha => ⟨g, (Option.some.inj ha).symm, howner⟩⟩
      refine hu.setPde hpid hpdi' hpoints.word fun _ => ?_
      rw [hpoints.frame]
      exact leads_user hpdi hpdi' howner

/-- A frame is entered as the page behind an entry of a mounted user table. -/
theorem enterPage (h : Working L cur K base s owner) (hf : owner f = .table pdi pid) (hq : q < 1024)
    (hfree : owner g = .free) (hlow : reservedFrames ≤ g) (hlt : g < physTotalFrames)
    (hused : bitmapTest s.bitmap g = true) (hpoints : Points v g) :
    Working L cur K base (s.setEntry f q v) (Function.update owner g (.page f q)) := by
  have hne : f ≠ g := by
    rintro rfl
    exact nomatch hf.symm.trans hfree
  have hentered := h.enter (o := .page f q) hfree hlow hlt hused fun _ _ => nofun
  have hf' : Function.update owner g (.page f q) f = .table pdi pid := by
    rw [Function.update_of_ne hne]
    exact hf
  refine hentered.setPte hf' hq hpoints.word fun _ _ => ?_
  rw [hpoints.frame, Function.update_self]

theorem loadUserPage (h : Working L cur K base s owner) (hpid : pid < maxProc) (hpdi : 0 < pdIndex va)
    (hpdi' : pdIndex va < 768) {src copySize : ℕ} (hsize : copySize ≤ 4096) :
    Ensures (loadUserPage L pid va src copySize s) fun r => Ready L cur K base r.2 := by
  unfold Paging.loadUserPage
  refine (h.userPt hpid hpdi hpdi').bind fun r hr => ?_
  obtain ⟨pt, s⟩ := r
  obtain ⟨owner, h, hpt⟩ := hr
  cases pt with
  | none => exact ensures_ok ⟨owner, h⟩
  | some a =>
    obtain ⟨f, rfl, hf⟩ := hpt a rfl
    dsimp only
    rcases allocFrame_cases s.bitmap with hnull | ⟨g, hg, hr⟩
    · rw [if_pos hnull]
      exact ensures_ok ⟨owner, h⟩
    obtain ⟨h₁, hfree, hlow⟩ := h.alloc hg
    have hflt : f < 2 ^ 20 := by
      exact (h.owned.used f (Owned.table_ne_free hf)).2.1.trans (by decide)
    have hglt : g < 2 ^ 20 := hg.lt.trans (by decide)
    rw [hr, if_neg (frame_ne_zero hlow)]
    dsimp only
    -- the page table is mounted for the entry
    refine (h₁.mount (.inl rfl) hflt _).bind fun t ht => ?_
    obtain ⟨hremount, hshows⟩ := ht
    have h₂ := h₁.remount (.inl rfl) hremount
    rw [hshows.write_eq (ptIndex_lt va), ok_bind]
    have hpoints : Points (g * 4096 ||| (pagePresent ||| pageRw ||| pageUser)) g :=
      points_or hglt (by decide) (by decide)
    have hused : bitmapTest t.bitmap g = true := by
      rw [hremount.within.bitmap]
      exact bitmapTest_set_self _ g
    have h₃ := h₂.enterPage hf (ptIndex_lt va) hfree hlow hg.lt hused hpoints
    refine (h₃.unmount (.inl rfl)).bind fun u hu => ?_
    have h₄ := h₃.remount (.inl rfl) hu
    -- and the page for its bytes
    refine (h₄.mount (.inr rfl) hglt _).bind fun w hw => ?_
    obtain ⟨hremount', hshows'⟩ := hw
    have h₅ := h₄.remount (.inr rfl) hremount'
    have howner : Function.update owner g (.page f (ptIndex va)) g = .page f (ptIndex va) :=
      Function.update_self _ _ _
    have hK : K ≠ g := h.kstack_ne_of_free hfree
    refine (hshows'.fillPage (h.dir_ne_of_ge hlow) hK hsize).bind fun x hx => ?_
    have h₆ := h₅.within hx hlow fun _ _ ho => nomatch howner.symm.trans ho
    refine (h₆.unmount (.inr rfl)).bind fun y hy => ?_
    exact ensures_ok ⟨_, h₆.remount (.inr rfl) hy⟩

theorem pagingLoadUserImage (h : Working L cur K base s owner) (hpid : pid < maxProc) (src size : ℕ) :
    Ensures (pagingLoadUserImage L pid src size s) fun r => Ready L cur K base r.2 := by
  unfold Paging.pagingLoadUserImage
  split
  · exact ensures_ok ⟨owner, h⟩
  · rename_i hsize
    have hsize : size ≤ 4096 := Nat.le_of_not_lt fun hlt => hsize (.inr hlt)
    refine (h.loadUserPage hpid (by decide) (by decide) hsize).bind fun r hr => ?_
    split
    · exact ensures_ok hr
    · obtain ⟨owner', h'⟩ := hr
      refine (h'.loadUserPage hpid (by decide) (by decide) (by decide)).bind fun r hr => ?_
      split
      · exact ensures_ok hr
      · exact ensures_ok hr

/-- While the pages behind a parent's table are copied, the child's table stays mounted. -/
structure Copying (L : Layout) (cur K child pdi r : ℕ) (base s : PagingState) (owner : ℕ → Owner) : Prop extends
    Working L cur K base s owner where
  table : owner r = .table pdi child
  shows : Shows s (L.dir cur) K forkScratchPtVa r

theorem forkPte (h : Copying L cur K child pdi r base s owner) (hpdi : pdi < 768) (hpti : pti < 1024) :
    Ensures (forkPte pdi s pti) fun a => if a.1 then ∃ owner', Copying L cur K child pdi r base a.2 owner'
      else Ready L cur K base a.2 := by
  unfold Paging.forkPte
  refine Ensures.bind (Q := fun _ => True) (fun _ _ => trivial) fun pte _ => ?_
  by_cases hpresent : Present pte
  · rw [if_neg (mt present_iff.mp (not_not.mpr hpresent))]
    dsimp only
    rcases allocFrame_cases s.bitmap with hnull | ⟨g, hg, hr⟩
    · rw [if_pos hnull]
      refine (h.unmount (.inl rfl)).bind fun t ht => ?_
      exact ensures_ok ⟨owner, h.remount (.inl rfl) ht⟩
    obtain ⟨h₁, hfree, hlow⟩ := h.alloc hg
    have hglt : g < 2 ^ 20 := hg.lt.trans (by decide)
    have hKr := h.kstack_ne hpdi h.table
    have hrne := Owned.table_ne_free h.table
    have hKg := h.kstack_ne_of_free hfree
    rw [hr, if_neg (frame_ne_zero hlow)]
    dsimp only
    refine (h₁.mount (.inr rfl) hglt _).bind fun t ht => ?_
    obtain ⟨hremount, hdata⟩ := ht
    have h₂ := h₁.remount (.inr rfl) hremount
    have hshows₁ : Shows { s with bitmap := bitmapSet s.bitmap g } (L.dir cur) K forkScratchPtVa r :=
      h.shows.congr rfl rfl rfl
    have hshows₂ := h₁.shows_remount hshows₁ hremount (by decide)
    refine (hdata.copyPage (h.dir_ne_of_ge hlow) hKg _).bind fun u hu => ?_
    have h₃ := h₂.within hu hlow fun _ _ ho => nomatch hfree.symm.trans ho
    have hshows₃ := h₂.shows_within hshows₂ hu hlow hKg
    rw [hshows₃.write_eq hpti, ok_bind]
    have hused : bitmapTest u.bitmap g = true := by
      rw [hu.bitmap, hremount.within.bitmap]
      exact bitmapTest_set_self _ g
    have h₄ := h₃.enterPage h.table hpti hfree hlow hg.lt hused (points_flags hglt hpresent)
    refine ensures_ok ⟨_, h₄, ?_, ?_⟩
    · rw [Function.update_of_ne (by rintro rfl; exact hrne hfree)]
      exact h.table
    · exact hshows₃.within (within_setEntry hpti) (h.dir_ne hrne) hKr
  · rw [if_pos (present_iff.mpr hpresent)]
    exact ensures_ok ⟨owner, h⟩

theorem forkPde (h : Working L cur K base s owner) (hchild : child < maxProc) (hpdi : 0 < pdi) (hpdi' : pdi < 768) :
    Ensures (forkPde L child s pdi) fun a => Ready L cur K base a.2 := by
  unfold Paging.forkPde
  refine Ensures.bind (Q := fun _ => True) (fun _ _ => trivial) fun pde _ => ?_
  by_cases hpresent : Present pde
  · rw [if_neg (mt present_iff.mp (not_not.mpr hpresent))]
    dsimp only
    rcases allocFrame_cases s.bitmap with hnull | ⟨g, hg, hr⟩
    · rw [if_pos hnull]
      exact ensures_ok ⟨owner, h⟩
    have hlow := h.owned.newFrame_ge hg
    rw [hr, if_neg (frame_ne_zero hlow)]
    dsimp only
    rw [← bind_assoc]
    refine (h.newTable hg pdi child _).bind fun t ht => ?_
    obtain ⟨ht, hshows⟩ := ht
    have howner : Function.update owner g (.table pdi child) g = .table pdi child := Function.update_self _ _ _
    have hpoints := points_flags (hg.lt.trans (by decide) : g < 2 ^ 20) hpresent
    have hset := ht.setPde hchild hpdi' hpoints.word fun _ => by
      rw [hpoints.frame]
      exact leads_user hpdi hpdi' howner
    have hmounted : Shows (t.setEntry (L.dir child) pdi (g * 4096 ||| (pde &&& 0xFFF))) (L.dir cur) K
        forkScratchPtVa g := by
      refine hshows.congr rfl ?_ ?_
      · have hindex : pdIndex forkScratchPtVa = 956 := by decide
        exact PagingState.entry_setEntry_of_ne (by omega) (by decide) fun he => absurd he.2 (by omega)
      · exact PagingState.entry_setEntry_of_ne (by omega) (by decide) fun he => h.dir_ne_kstack hchild he.1.symm
    refine (ensures_tryEach (I := fun u => ∃ owner', Copying L cur K child pdi g base u owner')
      (J := Ready L cur K base) (fun pti hpti u hu => ?_) ⟨_, hset, howner, hmounted⟩).mono fun a ha => ?_
    · obtain ⟨owner', hu⟩ := hu
      exact forkPte hu hpdi' (List.mem_range.mp hpti)
    · split at ha
      · obtain ⟨owner', ha⟩ := ha
        exact ⟨owner', ha.toWorking⟩
      · exact ha
  · rw [if_pos (present_iff.mpr hpresent)]
    exact ensures_ok ⟨owner, h⟩

/-- `paging_fork_copy` behind the entry of the kernel stacks. -/
theorem forkTables (h : Working L cur K base s owner) (hchild : child < maxProc) :
    Ensures (do
      let r ← tryEach (Paging.forkPde L child) (List.range' 1 767) s
      if !r.1 then .ok r
      else do
        let s ← unmapPage forkScratchPtVa r.2
        let s ← unmapPage forkScratchDataVa s
        .ok (true, s)) fun a => Ready L cur K base a.2 := by
  refine (ensures_tryEach (I := Ready L cur K base) (J := Ready L cur K base) (fun pdi hpdi t ht => ?_)
    ⟨owner, h⟩).bind fun r hr => ?_
  · obtain ⟨owner, ht⟩ := ht
    have hrange := List.mem_range'_1.mp hpdi
    refine (ht.forkPde hchild (by omega) (by omega)).mono fun a ha => ?_
    split
    · exact ha
    · exact ha
  · have hready : Ready L cur K base r.2 := by
      split at hr
      · exact hr
      · exact hr
    split
    · exact ensures_ok hready
    · obtain ⟨owner, hr⟩ := hready
      refine (hr.unmount (.inl rfl)).bind fun t ht => ?_
      have ht := hr.remount (.inl rfl) ht
      refine (ht.unmount (.inr rfl)).bind fun u hu => ?_
      exact ensures_ok ⟨owner, ht.remount (.inr rfl) hu⟩

/-- The ledger of a table that is about to be torn down, with its entry already gone. -/
theorem doomed (h : Working L cur K base s owner) (hpid : pid < maxProc) (hpdi : 0 < pdi) (hpdi' : pdi < 768)
    (hpresent : Present (s.entry (L.dir pid) pdi)) (hf : s.entry (L.dir pid) pdi / 4096 = f) :
    Owned L (s.setEntry (L.dir pid) pdi pageRw).entry s.bitmap (Owned.without owner f) ∧
      ∀ j < 1024, Present (s.entry f j) → Owned.without owner f (s.entry f j / 4096) = .free := by
  have hown := h.owned.owner_table hpid hpdi (by omega) hpresent
  rw [hf, tableOf_user hpdi'] at hown
  have hfree := Owned.table_ne_free hown
  have hcleared : Owned L (s.setEntry (L.dir pid) pdi pageRw).entry s.bitmap owner :=
    h.owned.setPde hpid (by omega) (by decide) fun hc => absurd hc (by decide)
  constructor
  · refine hcleared.dropTable hown fun pid' hpid' i hi hpresent' hsame => ?_
    have hleads := hcleared.pde pid' hpid' i hi hpresent'
    rw [hsame] at hleads
    rcases Nat.eq_zero_or_pos i with h0 | hpos
    · exact h.owned.ne_fpt hfree (hleads.first h0)
    · by_cases hlast : i = 1023
      · exact h.owned.ne_dir hfree hpid' (hleads.self hlast)
      · -- the only entry that led to the table is the one that is gone
        have htable := hleads.table hpos (by omega)
        rw [hown] at htable
        obtain ⟨rfl, hpids⟩ := Owner.table.inj htable
        rw [if_pos hpdi'] at hpids
        subst hpids
        rw [PagingState.entry_setEntry_self (by decide)] at hpresent'
        exact absurd hpresent' (by decide)
  · intro j hj hpte
    have hns : ¬Scratch pdi j := by
      intro hc
      have hindex := (scratch_iff.mp hc).1
      have : kstackPdeIndex = 956 := by decide
      omega
    exact Owned.without_page (h.owned.pte f pdi pid hown j hj hns hpte)

/-- The loop that frees the pages of a table. -/
theorem freePages (hshows : Shows s (L.dir cur) K forkScratchPtVa f)
    (howned : Owned L (s.setEntry (L.dir pid) pdi pageRw).entry s.bitmap owner)
    (hpages : ∀ j < 1024, Present (s.entry f j) → owner (s.entry f j / 4096) = .free) :
    Ensures ((List.range 1024).foldlM freePte s) fun t => ∃ bm, t = { s with bitmap := bm } ∧
      Owned L (s.setEntry (L.dir pid) pdi pageRw).entry bm owner := by
  refine ensures_foldlM (fun pti hpti t ht => ?_) ⟨s.bitmap, rfl, howned⟩
  obtain ⟨bm, rfl, howned⟩ := ht
  have hpti := List.mem_range.mp hpti
  have hshows' : Shows { s with bitmap := bm } (L.dir cur) K forkScratchPtVa f := hshows.congr rfl rfl rfl
  have hentry : ({ s with bitmap := bm } : PagingState).entry f pti = s.entry f pti := rfl
  unfold freePte
  rw [hshows'.read_eq hpti, ok_bind, hentry]
  by_cases hpresent : Present (s.entry f pti)
  · rw [if_neg (mt present_iff.mp (not_not.mpr hpresent)), clearLow_entry PagingState.entry_lt]
    exact ensures_ok ⟨_, rfl, howned.release (hpages pti hpti hpresent)⟩
  · rw [if_pos (present_iff.mpr hpresent)]
    exact ensures_ok ⟨bm, rfl, howned⟩

/-- The last stores of a round of `paging_proc_teardown`: the scratch page and the entry are cleared. -/
theorem unmountDoomed {bm : Bitmap} (h : Working L cur K base s owner) (hpdi : pdi < 768)
    (howned : Owned L (s.setEntry (L.dir pid) pdi pageRw).entry bm (Owned.without owner f)) :
    Working L cur K base ((({ s with bitmap := bm } : PagingState).setEntry K (ptIndex forkScratchPtVa) 0).setEntry
      (L.dir pid) pdi pageRw) (Owned.without owner f) := by
  have hdir : ∀ pid' < maxProc, ∀ i, 768 ≤ i → i < 1024 →
      ((({ s with bitmap := bm } : PagingState).setEntry K (ptIndex forkScratchPtVa) 0).setEntry
        (L.dir pid) pdi pageRw).entry (L.dir pid') i = s.entry (L.dir pid') i := by
    intro pid' hpid' i h768 hi
    rw [PagingState.entry_setEntry_of_ne (by omega) hi fun he => absurd he.2 (by omega)]
    exact PagingState.entry_setEntry_of_ne (by decide) hi fun he => h.dir_ne_kstack hpid' he.1
  refine h.congr rfl hdir ?_
  apply howned.edit (f := K) (j := ptIndex forkScratchPtVa)
  · intro f' j' hj' hne
    rw [PagingState.entry_setEntry (by omega) hj' (by decide), PagingState.entry_setEntry_of_ne (by decide) hj' hne,
      PagingState.entry_setEntry (by omega) hj' (by decide)]
    rfl
  · exact h.owned.ne_fpt h.kstack_ne_free
  · intro pid' hpid' he
    exact absurd he.symm (h.dir_ne_kstack hpid')
  · intro i pid' ho hns
    obtain ⟨rfl, -⟩ := Owner.table.inj (h.owner_kstack.symm.trans (Owned.of_without ho).2)
    exact absurd ⟨forkScratchPtVa, .inl rfl, rfl, rfl⟩ hns

theorem teardownPde (h : Working L cur K base s owner) (hpid : pid < maxProc) (hpdi : 0 < pdi)
    (hpdi' : pdi < 768) : Ensures (teardownPde L pid s pdi) fun t => Ready L cur K base t := by
  have hpde : load32 s.mem (L.pageDirectory pid + 4 * pdi) = s.entry (L.dir pid) pdi := rfl
  unfold Paging.teardownPde
  dsimp only
  rw [hpde]
  by_cases hpresent : Present (s.entry (L.dir pid) pdi)
  · rw [if_neg (mt present_iff.mp (not_not.mpr hpresent)), clearLow_entry PagingState.entry_lt]
    have hown := h.owned.owner_table hpid hpdi (by omega) hpresent
    rw [tableOf_user hpdi'] at hown
    generalize hf : s.entry (L.dir pid) pdi / 4096 = f at hown
    have hKf := h.kstack_ne hpdi' hown
    have hflt : f < 2 ^ 20 := by
      exact (h.owned.used f (Owned.table_ne_free hown)).2.1.trans (by decide)
    refine (h.mount (.inl rfl) hflt _).bind fun t ht => ?_
    obtain ⟨hremount, hshows⟩ := ht
    have ht := h.remount (.inl rfl) hremount
    have hentry : t.entry (L.dir pid) pdi = s.entry (L.dir pid) pdi :=
      hremount.within.entry (h.dir_ne_kstack hpid) (by omega)
    rw [← hentry] at hpresent hf
    obtain ⟨howned, hpages⟩ := ht.doomed hpid hpdi hpdi' hpresent hf
    refine (freePages hshows howned hpages).bind fun u hu => ?_
    obtain ⟨bm, rfl, howned⟩ := hu
    have hhomed : Homed L cur { t with bitmap := bm } := ⟨ht.homed.cr3, ht.homed.self⟩
    have hunmounted : Ensures (unmapPage forkScratchPtVa { t with bitmap := bm }) fun u => u =
        ({ t with bitmap := bm } : PagingState).setEntry K (ptIndex forkScratchPtVa) 0 := by
      refine hhomed.unmapPage_windowed (by decide) (by decide) fun hwindow => ?_
      have htable : ({ t with bitmap := bm } : PagingState).entry (L.dir cur) (pdIndex forkScratchPtVa) / 4096 = K :=
        hshows.table
      rw [hwindow.unmapPage_eq (by decide) (by decide), htable, if_pos ⟨hshows.pde, hshows.pte⟩]
      exact ensures_ok rfl
    refine hunmounted.bind fun u hu => ?_
    subst hu
    have hreleased := howned.release (g := f) Owned.without_self
    exact ensures_ok ⟨_, ht.unmountDoomed hpdi' hreleased⟩
  · rw [if_pos (present_iff.mpr hpresent)]
    exact ensures_ok ⟨owner, h⟩

theorem pagingProcTeardown (h : Working L cur K base s owner) (hpid : pid < maxProc) :
    Ensures (pagingProcTeardown L pid s) fun t => Ready L cur K base t := by
  refine ensures_foldlM (fun pdi hpdi t ht => ?_) ⟨owner, h⟩
  obtain ⟨owner, ht⟩ := ht
  have hrange := List.mem_range'_1.mp hpdi
  exact ht.teardownPde hpid (by omega) (by omega)

end Working

end HekaOS.Paging
