import HekaOS.PageEffects
import HekaOS.ForkPrivacy

/-!
# One page at a time

`get_physaddr` is the walk of the memory management unit. `map_page` and `unmap_page` change the translation
of one page, and of the page of the recursive window that shows a page table if they create it. Hence
what `alloc_page` undoes when it fails, and what `free_page` undoes of an `alloc_page` that did not.
-/

namespace HekaOS.Paging
open MachineWord KernelMemory KernelTriples ByteMemory PageWalk WordBitmap PhysPageFrame AddressMap
open Tasks (maxProc pageSize)

variable {L : Layout} {s t u : PagingState} {owner : ℕ → Owner} {cur d e f g i j K n p q phys va va' flags : ℕ}

/-! ### The walk -/

theorem walk_cr3 (hcr3 : s.cr3 = d * 4096) (va : ℕ) : walk s.mem s.cr3 va =
    if Maps s d (pdIndex va) (ptIndex va) then some (pteOf s d va / 4096 * 4096 + va % 4096) else none := by
  rw [hcr3]
  exact walk_dir s d va

theorem add32_offset (he : e < wordSize) (va : ℕ) :
    add32 (e / 4096 * 4096) (va % 4096) = e / 4096 * 4096 + va % 4096 := by
  unfold add32
  simp only [wordSize] at *
  omega

/-- Through the recursive window, `get_physaddr` faults nowhere and answers what the hardware walk finds, or null. -/
theorem get_physaddr_agrees (d : ℕ) (s : PagingState) (h : Window s d) (va : ℕ) (hva : va < wordSize) :
    getPhysaddr va s = .ok ((walk s.mem s.cr3 va).getD 0) := by
  have hmaps : Maps s d (pdIndex va) (ptIndex va) ↔ Present (s.entry d (pdIndex va)) ∧
      Present (s.entry (s.entry d (pdIndex va) / 4096) (ptIndex va)) := Iff.rfl
  rw [h.getPhysaddr_eq hva, walk_cr3 h.cr3]
  by_cases hm : Maps s d (pdIndex va) (ptIndex va)
  · rw [if_pos (hmaps.mp hm), if_pos hm, Option.getD_some]
    exact congrArg _ (add32_offset PagingState.entry_lt va)
  · rw [if_neg (mt hmaps.mpr hm), if_neg hm, Option.getD_none]

/-- The last page of the window is the directory itself. -/
theorem get_physaddr_window : getPhysaddr recursivePdBase bootState = .ok (sampleLayout.pageDirectory 0) := by
  have hwalk := bootState_window.shows_pd.walk_eq (show 0 < 4096 by decide)
  rw [Nat.add_zero, Nat.add_zero] at hwalk
  rw [get_physaddr_agrees _ _ bootState_window _ (by decide), hwalk]
  rfl

/-! ### Tables of their own -/

/-- The directory in frame `d` is current and shows itself in its last entry. It and its page tables are in
different frames, which are marked. -/
structure WellFormed (d : ℕ) (s : PagingState) : Prop where
  window : Window s d
  reserved : ∀ f < reservedFrames, InUse s f
  marked : ∀ i < 1024, Present (s.entry d i) → InUse s (s.entry d i / 4096)
  distinct : ∀ i < 1024, ∀ j < 1024, i ≠ j → Present (s.entry d i) → Present (s.entry d j) →
    s.entry d i / 4096 ≠ s.entry d j / 4096

/-- So are the tables in every state that the kernel can reach. -/
theorem Sound.wellFormed (h : Sound L cur s owner) (hwindow : Present (s.entry (L.dir cur) 1023)) :
    WellFormed (L.dir cur) s := by
  have hleads := fun i hi hpresent => h.owned.pde cur h.cur_lt i hi hpresent
  have hlow : ∀ i < 1024, Present (s.entry (L.dir cur) i) → i = 0 ∨ i = 1023 ∨
      owner (s.entry (L.dir cur) i / 4096) = tableOf cur i := by
    intro i hi hpresent
    by_cases h0 : i = 0
    · exact .inl h0
    · by_cases hlast : i = 1023
      · exact .inr (.inl hlast)
      · exact .inr (.inr ((hleads i hi hpresent).table (by omega) (by omega)))
  refine ⟨h.homed.window hwindow, h.owned.reserved, fun i hi hpresent => ?_, fun i hi j hj hne hi' hj' => ?_⟩
  · rcases hlow i hi hpresent with rfl | rfl | hown
    · rw [(hleads 0 hi hpresent).first rfl]
      exact h.owned.reserved _ L.fpt_low
    · rw [(hleads 1023 hi hpresent).self rfl]
      exact h.owned.reserved _ (dir_lt h.cur_lt)
    · exact (h.owned.used _ (Owned.owner_ne_free hown)).2.2
  · rcases hlow i hi hi' with rfl | rfl | hown <;> rcases hlow j hj hj' with rfl | rfl | hown'
    · exact absurd rfl hne
    · rw [(hleads 0 hi hi').first rfl, (hleads 1023 hj hj').self rfl]
      exact (dir_ne_fpt h.cur_lt).symm
    · rw [(hleads 0 hi hi').first rfl]
      exact (h.owned.ne_fpt (Owned.owner_ne_free hown')).symm
    · rw [(hleads 0 hj hj').first rfl, (hleads 1023 hi hi').self rfl]
      exact dir_ne_fpt h.cur_lt
    · exact absurd rfl hne
    · rw [(hleads 1023 hi hi').self rfl]
      exact (h.owned.ne_dir (Owned.owner_ne_free hown') h.cur_lt).symm
    · rw [(hleads 0 hj hj').first rfl]
      exact h.owned.ne_fpt (Owned.owner_ne_free hown)
    · rw [(hleads 1023 hj hj').self rfl]
      exact h.owned.ne_dir (Owned.owner_ne_free hown) h.cur_lt
    · intro he
      rw [he, hown'] at hown
      exact hne (Owner.table.inj hown).1.symm

theorem bootState_wellFormed : WellFormed (sampleLayout.dir 0) bootState :=
  bootState_sound.wellFormed bootState_window.present

theorem WellFormed.table_ne_dir (h : WellFormed d s) (hp : p < 1023) (hpresent : Present (s.entry d p)) :
    s.entry d p / 4096 ≠ d := by
  have hne := h.distinct p (by omega) 1023 (by decide) hp.ne hpresent h.window.present
  rw [h.window.self] at hne
  exact hne

theorem WellFormed.dir_inUse (h : WellFormed d s) : InUse s d := by
  have hmarked := h.marked 1023 (by decide) h.window.present
  rw [h.window.self] at hmarked
  exact hmarked

/-! ### What a store to the tables changes -/

theorem samePage_iff : va' / 4096 = va / 4096 ↔ pdIndex va' = pdIndex va ∧ ptIndex va' = ptIndex va := by
  unfold pdIndex ptIndex
  omega

theorem pdIndex_offset (haligned : va % 4096 = 0) {o : ℕ} (ho : o < 4096) : pdIndex (va + o) = pdIndex va := by
  unfold pdIndex
  omega

theorem ptIndex_offset (haligned : va % 4096 = 0) {o : ℕ} (ho : o < 4096) : ptIndex (va + o) = ptIndex va := by
  unfold ptIndex
  omega

theorem pdIndex_below (hva : va < recursivePtBase) : pdIndex va < 1023 := by
  unfold pdIndex
  simp only [recursivePtBase] at hva
  omega

theorem below_word (hva : va < recursivePtBase) : va < wordSize := hva.trans (by decide)

theorem walk_offset (hcr3 : s.cr3 = d * 4096) (haligned : va % 4096 = 0) {o : ℕ} (ho : o < 4096) :
    walk s.mem s.cr3 (va + o) = if Maps s d (pdIndex va) (ptIndex va) then some (pteOf s d va / 4096 * 4096 + o) else none := by
  have hoffset : (va + o) % 4096 = o := by omega
  have hpte : pteOf s d (va + o) = pteOf s d va := by
    unfold pteOf
    rw [pdIndex_offset haligned ho, ptIndex_offset haligned ho]
  rw [walk_cr3 hcr3, pdIndex_offset haligned ho, ptIndex_offset haligned ho, hpte, hoffset]

/-- Entry `q` of the table in frame `K` is `e` now. -/
structure EntrySet (K q e : ℕ) (s t : PagingState) : Prop where
  within : Within K s t
  entry : t.entry K q = e
  others : ∀ j < 1024, j ≠ q → t.entry K j = s.entry K j

theorem entrySet_setEntry (hq : q < 1024) (he : e < wordSize) : EntrySet K q e s (s.setEntry K q e) :=
  ⟨within_setEntry hq, PagingState.entry_setEntry_self he, fun _ hj hne =>
    PagingState.entry_setEntry_of_ne hq hj fun h => hne h.2⟩

/-- Frame `g` was free and is the empty page table at index `p` now. -/
structure TableSet (d p g flags : ℕ) (s t : PagingState) : Prop where
  new : NewFrame s.bitmap g
  cr3 : t.cr3 = s.cr3
  bitmap : t.bitmap = bitmapSet s.bitmap g
  mem : ∀ a, a / 4096 ≠ d → a / 4096 ≠ g → t.mem a = s.mem a
  pde : t.entry d p = g * 4096 ||| (pagePresent ||| pageRw ||| (flags &&& pageUser))
  others : ∀ i < 1024, i ≠ p → t.entry d i = s.entry d i
  empty : ∀ q < 1024, t.entry g q = 0

theorem TableSet.points (h : TableSet d p g flags s t) : Points (t.entry d p) g := by
  rw [h.pde]
  exact points_pde (h.new.lt.trans (by decide)) flags

theorem TableSet.entry (h : TableSet d p g flags s t) (hd : f ≠ d) (hg : f ≠ g) (hj : j < 1024) :
    t.entry f j = s.entry f j := PagingState.entry_of_mem (fun a ha => h.mem a (ha ▸ hd) (ha ▸ hg)) hj

theorem inUse_ne (hf : InUse s f) (hg : NewFrame s.bitmap g) : f ≠ g := by
  rintro rfl
  exact Bool.false_ne_true (hg.clear.symm.trans hf)

namespace WellFormed

theorem tableSet (h : WellFormed d s) (hg : NewFrame s.bitmap g) (hp : pdIndex va < 1024) (flags : ℕ) :
    TableSet d (pdIndex va) g flags s (Window.withNewPt s d g va flags) := by
  have hdg := inUse_ne h.dir_inUse hg
  have hpoints := points_pde (hg.lt.trans (by decide) : g < 2 ^ 20) flags
  obtain ⟨t, ht⟩ : ∃ t, ({ s with bitmap := bitmapSet s.bitmap g } : PagingState).setEntry d (pdIndex va)
      (g * 4096 ||| (pagePresent ||| pageRw ||| (flags &&& pageUser))) = t := ⟨_, rfl⟩
  have hset : EntrySet d (pdIndex va) _ { s with bitmap := bitmapSet s.bitmap g } t := ht ▸ entrySet_setEntry hp hpoints.word
  have hcleared : Within g t (Window.withNewPt s d g va flags) := by
    rw [← ht]
    exact within_clearTable
  refine ⟨hg, hcleared.cr3.trans hset.within.cr3, hcleared.bitmap.trans hset.within.bitmap, fun a had hag => ?_, ?_,
    fun i hi hne => ?_, fun q hq => ?_⟩
  · rw [hcleared.mem a hag, hset.within.mem a had]
  · rw [hcleared.entry hdg hp, hset.entry]
  · rw [hcleared.entry hdg hi]
    exact hset.others i hi hne
  · exact entry_clearTable hq

variable (h : WellFormed d s)
include h

/-- With the new table, the tables are still apart. -/
theorem with_table (hp : p < 1023) (ht : TableSet d p g flags s t) : WellFormed d t := by
  have hself := ht.others 1023 (by decide) hp.ne'
  have hold : ∀ i < 1024, i ≠ p → Present (s.entry d i) → s.entry d i / 4096 ≠ g := fun i hi _ hpresent =>
    inUse_ne (h.marked i hi hpresent) ht.new
  have hmark : ∀ {f}, InUse s f ∨ f = g → InUse t f := by
    intro f hf
    unfold InUse
    rw [ht.bitmap, bitmapTest_set, Bool.or_eq_true, decide_eq_true_iff]
    exact hf
  refine ⟨h.window.congr ht.cr3 hself, fun f hf => hmark (.inl (h.reserved f hf)), fun i hi hpresent => ?_,
    fun i hi j hj hne hi' hj' => ?_⟩
  · by_cases hip : i = p
    · subst hip
      rw [ht.points.frame]
      exact hmark (.inr rfl)
    · rw [ht.others i hi hip] at hpresent ⊢
      exact hmark (.inl (h.marked i hi hpresent))
  · by_cases hip : i = p
    · subst hip
      rw [ht.others j hj hne.symm] at hj' ⊢
      rw [ht.points.frame]
      exact (hold j hj hne.symm hj').symm
    · rw [ht.others i hi hip] at hi' ⊢
      by_cases hjp : j = p
      · subst hjp
        rw [ht.points.frame]
        exact hold i hi hip hi'
      · rw [ht.others j hj hjp] at hj' ⊢
        exact h.distinct i hi j hj hne hi' hj'

/-- Outside its page, a store to an entry of a page table changes no translation. -/
theorem walk_entrySet (hp : p < 1023) (hpresent : Present (s.entry d p)) (ht : EntrySet (s.entry d p / 4096) q e s t)
    (hva : va < wordSize) (hne : ¬(pdIndex va = p ∧ ptIndex va = q)) : walk t.mem t.cr3 va = walk s.mem s.cr3 va := by
  have hpde := ht.within.entry (h.table_ne_dir hp hpresent).symm (pdIndex_lt hva)
  rw [ht.within.cr3, h.window.cr3]
  refine walk_congr_entries hpde fun hpresent' => .inl ?_
  unfold pteOf
  rw [hpde]
  by_cases hip : pdIndex va = p
  · rw [hip]
    exact ht.others _ (ptIndex_lt va) fun he => hne ⟨hip, he⟩
  · exact ht.within.entry (h.distinct _ (pdIndex_lt hva) p (by omega) hip hpresent' hpresent) (ptIndex_lt va)

theorem pteOf_entrySet (hp : pdIndex va < 1023) (hpresent : Present (s.entry d (pdIndex va)))
    (ht : EntrySet (s.entry d (pdIndex va) / 4096) (ptIndex va) e s t) :
    t.entry d (pdIndex va) = s.entry d (pdIndex va) ∧ pteOf t d va = e := by
  have hpde := ht.within.entry (h.table_ne_dir hp hpresent).symm (show pdIndex va < 1024 by omega)
  refine ⟨hpde, ?_⟩
  unfold pteOf
  rw [hpde]
  exact ht.entry

/-- The page itself is translated by the entry. -/
theorem walk_entrySet_self (hp : pdIndex va < 1023) (hpresent : Present (s.entry d (pdIndex va)))
    (ht : EntrySet (s.entry d (pdIndex va) / 4096) (ptIndex va) e s t) (haligned : va % 4096 = 0) {o : ℕ} (ho : o < 4096) :
    walk t.mem t.cr3 (va + o) = if Present e then some (e / 4096 * 4096 + o) else none := by
  obtain ⟨hpde, hpte⟩ := h.pteOf_entrySet hp hpresent ht
  have hmaps : Maps t d (pdIndex va) (ptIndex va) ↔ Present e := by
    rw [← hpte]
    unfold Maps pteOf
    rw [hpde, and_iff_right hpresent]
  rw [walk_offset (ht.within.cr3.trans h.window.cr3) haligned ho, hpte]
  simp only [hmaps]

/-- A new page table is seen in the window only. -/
theorem walk_tableSet (habsent : ¬Present (s.entry d p)) (ht : TableSet d p g flags s t)
    (hva : va < wordSize) (hne : ¬(pdIndex va = 1023 ∧ ptIndex va = p)) : walk t.mem t.cr3 va = walk s.mem s.cr3 va := by
  rw [ht.cr3, h.window.cr3]
  by_cases hip : pdIndex va = p
  · rw [walk_dir, walk_dir, if_neg, if_neg]
    · rintro ⟨hpresent, -⟩
      exact habsent (hip ▸ hpresent)
    · rintro ⟨-, hpte⟩
      rw [hip, ht.points.frame, ht.empty _ (ptIndex_lt va)] at hpte
      exact absurd hpte (by decide)
  · have hpde := ht.others _ (pdIndex_lt hva) hip
    refine walk_congr_entries hpde fun hpresent => .inl ?_
    unfold pteOf
    rw [hpde]
    by_cases hlast : pdIndex va = 1023
    · rw [hlast, h.window.self]
      exact ht.others _ (ptIndex_lt va) fun he => hne ⟨hlast, he⟩
    · have htable := h.table_ne_dir (show pdIndex va < 1023 by have := pdIndex_lt hva; omega) hpresent
      exact ht.entry htable (inUse_ne (h.marked _ (pdIndex_lt hva) hpresent) ht.new) (ptIndex_lt va)

theorem window_tableSet (hp : p < 1023) (habsent : ¬Present (s.entry d p)) (ht : TableSet d p g flags s t) {o : ℕ}
    (ho : o < 4096) : walk s.mem s.cr3 (getPt p + o) = none ∧ walk t.mem t.cr3 (getPt p + o) = some (g * 4096 + o) := by
  have hva : getPt p = 0xFFC00000 + 4096 * p := rfl
  constructor
  · have hpd : pdIndex (getPt p) = 1023 := by
      rw [hva]
      unfold pdIndex
      omega
    have hpt : ptIndex (getPt p) = p := by
      rw [hva]
      unfold ptIndex
      omega
    rw [walk_offset h.window.cr3 (by rw [hva]; omega) ho, hpd, hpt, if_neg]
    rintro ⟨-, hpte⟩
    rw [h.window.self] at hpte
    exact habsent hpte
  · have hshows := (h.with_table hp ht).window.shows_pt (show p < 1024 by omega) ht.points.present
    rw [ht.points.frame] at hshows
    exact hshows.walk_eq ho

/-- `map_page` finds no frame for a page table and does nothing, or stores one entry, where need be to a new table. -/
theorem mapPage_cases (hva : va < recursivePtBase) (haligned : va % 4096 = 0) (hf : f < 2 ^ 20) (flags : ℕ) :
    ¬Present (s.entry d (pdIndex va)) ∧ Full s ∧ mapPage (f * 4096) va flags s = .ok s ∨
      ∃ b t, mapPage (f * 4096) va flags s = .ok t ∧
        (Present (s.entry d (pdIndex va)) ∧ b = s ∨
          ¬Present (s.entry d (pdIndex va)) ∧ ∃ g, TableSet d (pdIndex va) g flags s b) ∧
        WellFormed d b ∧ Present (b.entry d (pdIndex va)) ∧
        EntrySet (b.entry d (pdIndex va) / 4096) (ptIndex va) (f * 4096 ||| (flags &&& 0xFFF) ||| 0x01) b t := by
  have hp := pdIndex_below hva
  have hword := below_word hva
  have hpte := (points_pte hf flags).word
  by_cases hpresent : Present (s.entry d (pdIndex va))
  · right
    exact ⟨s, _, h.window.mapPage_present hword haligned hpresent (h.table_ne_dir hp hpresent) f, .inl ⟨hpresent, rfl⟩, h,
      hpresent, entrySet_setEntry (ptIndex_lt va) hpte⟩
  have hmap : _ ∧ mapPage (f * 4096) va flags s = .ok s ∨ _ :=
    h.window.mapPage_absent hword haligned hp.ne hpresent h.dir_inUse f
  rcases hmap with ⟨hnull, hmap⟩ | ⟨g, hg, -, hmap⟩
  · left
    rcases allocFrame_split h.reserved with ⟨hfull, -⟩ | ⟨g, -, hlow, hr⟩
    · exact ⟨hpresent, hfull, hmap⟩
    · rw [hr] at hnull
      exact absurd hnull (frame_ne_zero hlow)
  · right
    have htable := h.tableSet hg (show pdIndex va < 1024 by omega) flags
    have hentry : EntrySet g (ptIndex va) _ (Window.withNewPt s d g va flags) _ := entrySet_setEntry (ptIndex_lt va) hpte
    refine ⟨_, _, hmap, .inr ⟨hpresent, g, htable⟩, h.with_table hp htable, htable.points.present, ?_⟩
    rw [htable.points.frame]
    exact hentry

end WellFormed

/-! ### `map_page` and `unmap_page` -/

/-- The pages other than that of `va` are translated as before, as far as the window does not show a new table. -/
def OthersTranslated (d va : ℕ) (s t : PagingState) : Prop :=
  ∀ va' < wordSize, va' / 4096 ≠ va / 4096 →
    (va' / 4096 * 4096 = getPt (pdIndex va) → Present (s.entry d (pdIndex va))) →
    walk t.mem t.cr3 va' = walk s.mem s.cr3 va'

/-- `va` is translated to `phys`, and if its page table is new, then the window shows it. -/
structure MapsOne (d phys va flags : ℕ) (s t : PagingState) : Prop where
  translated : ∀ o < 4096, walk t.mem t.cr3 (va + o) = some (phys + o)
  flags : pteOf t d va % 4096 = (flags &&& 0xFFF) ||| 0x01
  others : OthersTranslated d va s t
  window : ¬Present (s.entry d (pdIndex va)) → ∃ g, NewFrame s.bitmap g ∧ ∀ o < 4096,
    walk s.mem s.cr3 (getPt (pdIndex va) + o) = none ∧ walk t.mem t.cr3 (getPt (pdIndex va) + o) = some (g * 4096 + o)

theorem getPt_window (p : ℕ) (hp : p < 1023) (va : ℕ) : va / 4096 * 4096 = getPt p ↔ pdIndex va = 1023 ∧ ptIndex va = p := by
  have hva : getPt p = 0xFFC00000 + 4096 * p := rfl
  rw [hva]
  unfold pdIndex ptIndex
  omega

theorem pte_flags (f flags : ℕ) : (f * 4096 ||| (flags &&& 0xFFF) ||| 0x01) % 4096 = (flags &&& 0xFFF) ||| 0x01 := by
  have hmod : ∀ x : ℕ, x % 4096 = x % 2 ^ 12 := fun _ => rfl
  have hmask : (flags &&& 0xFFF) % 2 ^ 12 = flags &&& 0xFFF := by
    rw [and_offset]
    omega
  have hframe : f * 4096 % 2 ^ 12 = 0 := by omega
  rw [hmod, Nat.or_mod_two_pow, Nat.or_mod_two_pow, hframe, hmask, Nat.zero_or]

namespace WellFormed

variable (h : WellFormed d s)
include h

theorem mapsOne (hva : va < recursivePtBase) (haligned : va % 4096 = 0) (hf : f < 2 ^ 20) {b : PagingState}
    (hb : Present (s.entry d (pdIndex va)) ∧ b = s ∨
      ¬Present (s.entry d (pdIndex va)) ∧ ∃ g, TableSet d (pdIndex va) g flags s b)
    (hwell : WellFormed d b) (hpresent : Present (b.entry d (pdIndex va)))
    (ht : EntrySet (b.entry d (pdIndex va) / 4096) (ptIndex va) (f * 4096 ||| (flags &&& 0xFFF) ||| 0x01) b t) :
    MapsOne d (f * 4096) va flags s t := by
  have hp := pdIndex_below hva
  have hpoints := points_pte hf flags
  have hbehind : ∀ va' < wordSize, va' / 4096 ≠ va / 4096 → walk t.mem t.cr3 va' = walk b.mem b.cr3 va' :=
    fun va' hva' hne => hwell.walk_entrySet hp hpresent ht hva' (mt samePage_iff.mpr hne)
  refine ⟨fun o ho => ?_, ?_, fun va' hva' hne hwindow => ?_, fun habsent => ?_⟩
  · rw [hwell.walk_entrySet_self hp hpresent ht haligned ho, if_pos hpoints.present, hpoints.frame]
  · rw [(hwell.pteOf_entrySet hp hpresent ht).2, pte_flags]
  · rw [hbehind va' hva' hne]
    rcases hb with ⟨-, rfl⟩ | ⟨habsent, g, htable⟩
    · rfl
    · exact h.walk_tableSet habsent htable hva' fun hat => habsent (hwindow ((getPt_window _ hp va').mpr hat))
  · rcases hb with ⟨hold, -⟩ | ⟨-, g, htable⟩
    · exact absurd hold habsent
    refine ⟨g, htable.new, fun o ho => ?_⟩
    obtain ⟨hnone, hsome⟩ := h.window_tableSet hp habsent htable ho
    refine ⟨hnone, ?_⟩
    have hword : getPt (pdIndex va) + o < wordSize := by
      have hpt : getPt (pdIndex va) = 0xFFC00000 + 4096 * pdIndex va := rfl
      simp only [wordSize]
      omega
    rw [hbehind _ hword, hsome]
    have hpt : getPt (pdIndex va) = 0xFFC00000 + 4096 * pdIndex va := rfl
    simp only [recursivePtBase] at hva
    omega

/-- `unmap_page` unmaps one page. -/
theorem unmapPage_returns (hva : va < recursivePtBase) (haligned : va % 4096 = 0) :
    Returns (unmapPage va s) fun t => (∀ o < 4096, walk t.mem t.cr3 (va + o) = none) ∧
      (∀ va' < wordSize, va' / 4096 ≠ va / 4096 → walk t.mem t.cr3 va' = walk s.mem s.cr3 va') ∧ t.bitmap = s.bitmap ∧
      t.cr3 = s.cr3 ∧ ∀ i < 1024, t.entry d i = s.entry d i := by
  have hp := pdIndex_below hva
  rw [h.window.unmapPage_eq (below_word hva) haligned]
  split
  · rename_i hmaps
    obtain ⟨hpresent, -⟩ := hmaps
    obtain ⟨t, ht⟩ : ∃ t, s.setEntry (s.entry d (pdIndex va) / 4096) (ptIndex va) 0 = t := ⟨_, rfl⟩
    have hset : EntrySet (s.entry d (pdIndex va) / 4096) (ptIndex va) 0 s t := ht ▸ entrySet_setEntry (ptIndex_lt va) (by decide)
    rw [ht]
    refine returns_ok ⟨fun o ho => ?_, fun va' hva' hne => ?_, hset.within.bitmap, hset.within.cr3,
      fun i hi => hset.within.entry (h.table_ne_dir hp hpresent).symm hi⟩
    · rw [h.walk_entrySet_self hp hpresent hset haligned ho, if_neg (by decide)]
    · exact h.walk_entrySet hp hpresent hset hva' (mt samePage_iff.mpr hne)
  · rename_i hmaps
    refine returns_ok ⟨fun o ho => ?_, fun _ _ _ => rfl, rfl, rfl, fun _ _ => rfl⟩
    rw [walk_offset h.window.cr3 haligned ho]
    exact if_neg hmaps

end WellFormed

/-- `map_page` finds no frame for a missing page table and does nothing, or it changes the translation of one page, and
that of the page of the window that shows the new table. `unmap_page` changes the translation of one page. -/
theorem map_page_changes_one (d : ℕ) (s : PagingState) (h : WellFormed d s) (phys va flags : ℕ) (hphys : phys < wordSize)
    (hva : va < recursivePtBase) :
    (phys % 4096 = 0 → va % 4096 = 0 → Returns (mapPage phys va flags s) fun t =>
      ¬Present (s.entry d (pdIndex va)) ∧ Full s ∧ t = s ∨ MapsOne d phys va flags s t) ∧
    (va % 4096 = 0 → Returns (unmapPage va s) fun t => (∀ o < 4096, walk t.mem t.cr3 (va + o) = none) ∧
      ∀ va' < wordSize, va' / 4096 ≠ va / 4096 → walk t.mem t.cr3 va' = walk s.mem s.cr3 va') ∧
    (phys % 4096 ≠ 0 ∨ va % 4096 ≠ 0 → mapPage phys va flags s = .ok s) ∧
    (va % 4096 ≠ 0 → unmapPage va s = .ok s) := by
  refine ⟨fun hzero haligned => ?_, fun haligned => ?_, fun hodd => ?_, fun hodd => ?_⟩
  · obtain ⟨f, rfl⟩ : ∃ f, phys = f * 4096 := ⟨phys / 4096, by omega⟩
    have hf : f < 2 ^ 20 := by
      simp only [wordSize] at hphys
      omega
    rcases h.mapPage_cases hva haligned hf flags with ⟨habsent, hfull, hok⟩ | ⟨b, t, hok, hb, hwell, hpresent, ht⟩
    · exact ⟨s, hok, .inl ⟨habsent, hfull, rfl⟩⟩
    · exact ⟨t, hok, .inr (h.mapsOne hva haligned hf hb hwell hpresent ht)⟩
  · exact (h.unmapPage_returns hva haligned).mono fun t ht => ⟨ht.1, ht.2.1⟩
  · unfold mapPage
    rw [and_offset, and_offset, if_pos hodd]
  · unfold unmapPage
    rw [and_offset, if_pos hodd]

theorem bootState_not_full : ¬Full bootState := fun hfull =>
  Bool.false_ne_true ((bootState_clear (f := 2048) (by decide) (by decide)).clear.symm.trans (hfull 2048 (by decide)))

/-- After the first page of a page table, the window shows one page more. -/
theorem map_page_shows_table : ¬∀ (d : ℕ) (s : PagingState), WellFormed d s → ∀ phys va flags t, phys < wordSize →
    phys % 4096 = 0 → va % 4096 = 0 → 2 ^ 22 ≤ va → va < recursivePtBase → mapPage phys va flags s = .ok t →
      ¬Present (s.entry d (pdIndex va)) ∧ Full s ∧ t = s ∨
      (∀ o < 4096, walk t.mem t.cr3 (va + o) = some (phys + o)) ∧ pteOf t d va % 4096 = (flags &&& 0xFFF) ||| 0x01 ∧
        ∀ va' < wordSize, va' / 4096 ≠ va / 4096 → walk t.mem t.cr3 va' = walk s.mem s.cr3 va' := by
  intro hall
  have h := bootState_wellFormed
  have habsent : ¬Present (bootState.entry (sampleLayout.dir 0) (pdIndex 0x00400000)) :=
    bootState_absent (by decide) (by decide) (by decide)
  rcases h.mapPage_cases (by decide : 0x00400000 < recursivePtBase) (by decide) (by decide : 2048 < 2 ^ 20) 3 with
    ⟨-, hfull, -⟩ | ⟨b, t, hok, hb, hwell, hpresent, ht⟩
  · exact bootState_not_full hfull
  have hone := h.mapsOne (by decide) (by decide) (by decide) hb hwell hpresent ht
  obtain ⟨g, -, hshown⟩ := hone.window habsent
  obtain ⟨hnone, hsome⟩ := hshown 0 (by decide)
  rcases hall _ _ h (2048 * 4096) 0x00400000 3 t (by decide) (by decide) (by decide) (by decide) (by decide) hok with
    ⟨-, hfull, -⟩ | ⟨-, -, hsame⟩
  · exact bootState_not_full hfull
  · have hkept := hsame (getPt (pdIndex 0x00400000) + 0) (by decide) (by decide)
    rw [hnone, hsome] at hkept
    cases hkept

/-- The first page behind the first 4 MiB. -/
theorem map_page_first : ∃ t, mapPage 0x00800000 0x00400000 3 bootState = .ok t ∧
    walk t.mem t.cr3 0x00400123 = some 0x00800123 ∧ walk t.mem t.cr3 0x00401000 = none := by
  obtain ⟨hmap, -, -, -⟩ := map_page_changes_one _ _ bootState_wellFormed 0x00800000 0x00400000 3 (by decide) (by decide)
  obtain ⟨t, hok, ⟨-, hfull, -⟩ | hone⟩ := hmap (by decide) (by decide)
  · exact absurd hfull bootState_not_full
  refine ⟨t, hok, hone.translated 0x123 (by decide), ?_⟩
  have hsame := hone.others 0x00401000 (by decide) (by decide) (fun hwindow => absurd hwindow (by decide))
  rw [hsame, walk_cr3 bootState_window.cr3, if_neg]
  rintro ⟨hpresent, -⟩
  exact bootState_absent (i := pdIndex 0x00401000) (by decide) (by decide) (by decide) hpresent

/-! ### `alloc_page` and `free_page` -/

theorem bitmap_ext {bm bm' : Bitmap} (h : ∀ x, bitmapTest bm x = bitmapTest bm' x) : bm = bm' := by
  funext w
  apply BitVec.eq_of_getLsbD_eq
  intro i hi
  have hword : (w * 32 + i) / 32 = w := by omega
  have hbit : (w * 32 + i) % 32 = i := by omega
  have hsame := h (w * 32 + i)
  unfold bitmapTest at hsame
  rw [hword, hbit] at hsame
  exact hsame

/-- Frame `f` is given back behind calls that took it. -/
theorem bitmap_returned {bm bm' : Bitmap} (hlow : reservedFrames ≤ f) (hlt : f < physTotalFrames)
    (hclear : bitmapTest bm' f = false) (hbits : ∀ x, bitmapTest bm x = (bitmapTest bm' x || decide (x = f))) :
    physFreeFrame (f * 4096) bm = bm' := by
  apply bitmap_ext
  intro x
  rw [bitmapTest_free _ hlow hlt, hbits]
  by_cases hx : x = f
  · subst hx
    rw [hclear]
    simp
  · simp [hx]

theorem alloc_rolled_back (hf : NewFrame s.bitmap f) (hlow : reservedFrames ≤ f) :
    ({ s with bitmap := bitmapSet s.bitmap f } : PagingState).free (f * 4096) = s := by
  have hbitmap := bitmap_returned hlow hf.lt hf.clear fun _ => bitmapTest_set
  unfold PagingState.free
  dsimp only
  rw [hbitmap]

namespace WellFormed

variable (h : WellFormed d s)
include h

/-- More frames are marked. -/
theorem with_mark (f : ℕ) : WellFormed d { s with bitmap := bitmapSet s.bitmap f } := by
  have hmark : ∀ {g}, InUse s g → InUse { s with bitmap := bitmapSet s.bitmap f } g := by
    intro g hg
    unfold InUse at *
    rw [bitmapTest_set, hg]
    rfl
  exact ⟨h.window.congr rfl rfl, fun g hg => hmark (h.reserved g hg), fun i hi hpresent => hmark (h.marked i hi hpresent),
    h.distinct⟩

theorem with_entry (hp : p < 1023) (hpresent : Present (s.entry d p)) (ht : EntrySet (s.entry d p / 4096) q e s t) :
    WellFormed d t := by
  have hdir : ∀ i < 1024, t.entry d i = s.entry d i := fun i hi => ht.within.entry (h.table_ne_dir hp hpresent).symm hi
  have hused : ∀ {g}, InUse s g → InUse t g := by
    intro g hg
    unfold InUse at *
    rw [ht.within.bitmap]
    exact hg
  refine ⟨h.window.congr ht.within.cr3 (hdir _ (by decide)), fun f hf => hused (h.reserved f hf), fun i hi hpresent => ?_,
    fun i hi j hj hne hi' hj' => ?_⟩
  · rw [hdir i hi] at hpresent ⊢
    exact hused (h.marked i hi hpresent)
  · rw [hdir i hi] at hi' ⊢
    rw [hdir j hj] at hj' ⊢
    exact h.distinct i hi j hj hne hi' hj'

/-- `alloc_page` leaves no trace when it answers null, or maps the frame it has found first. -/
theorem allocPage_cases (hva : va < recursivePtBase) (flags : ℕ) :
    (va % 4096 = 0 → Full s ∨ ∃ f, NewFrame s.bitmap f ∧ Full { s with bitmap := bitmapSet s.bitmap f }) ∧
      allocPage va flags s = .ok (0, s) ∨
    va % 4096 ≠ 0 ∧ (walk s.mem s.cr3 va).getD 0 ≠ 0 ∧ (∃ t, allocPage va flags s = .ok (va, t)) ∨
      va % 4096 = 0 ∧ ∃ f b t, NewFrame s.bitmap f ∧ reservedFrames ≤ f ∧ allocPage va flags s = .ok (va, t) ∧
        (Present (s.entry d (pdIndex va)) ∧ b = { s with bitmap := bitmapSet s.bitmap f } ∨
          ¬Present (s.entry d (pdIndex va)) ∧
            ∃ g, TableSet d (pdIndex va) g flags { s with bitmap := bitmapSet s.bitmap f } b) ∧
        WellFormed d b ∧ Present (b.entry d (pdIndex va)) ∧
        EntrySet (b.entry d (pdIndex va) / 4096) (ptIndex va) (f * 4096 ||| (flags &&& 0xFFF) ||| 0x01) b t := by
  have hword := below_word hva
  unfold allocPage
  dsimp only
  rcases allocFrame_split h.reserved with ⟨hfull, hr⟩ | ⟨f, hf, hlow, hr⟩
  · left
    rw [hr, if_pos rfl]
    exact ⟨fun _ => .inl hfull, rfl⟩
  rw [hr, if_neg (frame_ne_zero hlow)]
  dsimp only
  have hmarked := h.with_mark f
  obtain ⟨s₁, hs₁⟩ : ∃ s₁, ({ s with bitmap := bitmapSet s.bitmap f } : PagingState) = s₁ := ⟨_, rfl⟩
  have hback : s₁.free (f * 4096) = s := hs₁ ▸ alloc_rolled_back hf hlow
  have hwalk : walk s₁.mem s₁.cr3 va = walk s.mem s.cr3 va := by rw [← hs₁]
  have hpde : s₁.entry d (pdIndex va) = s.entry d (pdIndex va) := by
    rw [← hs₁]
    rfl
  rw [hs₁] at hmarked ⊢
  by_cases haligned : va % 4096 = 0
  · have hsplit := hmarked.mapPage_cases hva haligned (hf.lt.trans (by decide) : f < 2 ^ 20) flags
    rw [hpde] at hsplit
    rcases hsplit with ⟨habsent, hfull, hok⟩ | ⟨b, t, hok, hb, hwell, hpresent, ht⟩
    · left
      refine ⟨fun _ => .inr ⟨f, hf, hs₁ ▸ hfull⟩, ?_⟩
      have hnone : walk s₁.mem s₁.cr3 va = none := by
        rw [hwalk, walk_cr3 h.window.cr3, if_neg fun hmaps => habsent hmaps.1]
      rw [hok, ok_bind, get_physaddr_agrees d s₁ hmarked.window va hword, ok_bind, hnone, Option.getD_none, if_pos rfl, hback]
    · right
      right
      have hself := hwell.walk_entrySet_self (pdIndex_below hva) hpresent ht haligned (show 0 < 4096 by decide)
      have hpoints := points_pte (hf.lt.trans (by decide) : f < 2 ^ 20) flags
      rw [if_pos hpoints.present, hpoints.frame, Nat.add_zero, Nat.add_zero] at hself
      have hwindow := (hwell.with_entry (pdIndex_below hva) hpresent ht).window
      refine ⟨haligned, f, b, t, hf, hlow, ?_, by rw [hs₁]; exact hb, hwell, hpresent, ht⟩
      rw [hok, ok_bind, get_physaddr_agrees d t hwindow va hword, ok_bind, hself, Option.getD_some, if_neg (frame_ne_zero hlow)]
  · have hnop : mapPage (f * 4096) va flags s₁ = .ok s₁ := by
      unfold mapPage
      rw [and_offset, and_offset, if_pos (.inr haligned)]
    rw [hnop, ok_bind, get_physaddr_agrees d s₁ hmarked.window va hword, ok_bind, hwalk]
    by_cases hzero : (walk s.mem s.cr3 va).getD 0 = 0
    · left
      rw [if_pos hzero, hback]
      exact ⟨fun hc => absurd hc haligned, rfl⟩
    · right
      left
      rw [if_neg hzero]
      exact ⟨haligned, hzero, s₁, rfl⟩

end WellFormed

/-- What `free_page` leaves of an `alloc_page`: a page table, if there was none. -/
structure Restores (d va : ℕ) (s u : PagingState) : Prop where
  walks : ∀ va' < wordSize, (va' / 4096 * 4096 = getPt (pdIndex va) → Present (s.entry d (pdIndex va))) →
    walk u.mem u.cr3 va' = walk s.mem s.cr3 va'
  bitmap : Present (s.entry d (pdIndex va)) → u.bitmap = s.bitmap
  table : ¬Present (s.entry d (pdIndex va)) → ∃ g, NewFrame s.bitmap g ∧ u.bitmap = bitmapSet s.bitmap g ∧
    Present (u.entry d (pdIndex va)) ∧ u.entry d (pdIndex va) / 4096 = g ∧
    ∀ o < 4096, walk u.mem u.cr3 (getPt (pdIndex va) + o) = some (g * 4096 + o)

/-- A frame is given back that was taken in front of a page table. -/
theorem bitmap_behind (hf : NewFrame s.bitmap f) (hlow : reservedFrames ≤ f)
    (hg : NewFrame (bitmapSet s.bitmap f) g) :
    NewFrame s.bitmap g ∧ physFreeFrame (f * 4096) (bitmapSet (bitmapSet s.bitmap f) g) = bitmapSet s.bitmap g := by
  have hclear := hg.clear
  rw [bitmapTest_set, Bool.or_eq_false_iff, decide_eq_false_iff_not] at hclear
  refine ⟨⟨hg.lt, hclear.1⟩, bitmap_returned hlow hf.lt ?_ fun x => ?_⟩
  · rw [bitmapTest_set, hf.clear, decide_eq_false (Ne.symm hclear.2)]
    rfl
  · rw [bitmapTest_set, bitmapTest_set, bitmapTest_set, Bool.or_right_comm]

theorem WellFormed.freePage_restores (h : WellFormed d s) (hva : va < recursivePtBase) (haligned : va % 4096 = 0)
    (hunmapped : walk s.mem s.cr3 va = none) {b : PagingState} (hf : NewFrame s.bitmap f) (hlow : reservedFrames ≤ f)
    (hb : Present (s.entry d (pdIndex va)) ∧ b = { s with bitmap := bitmapSet s.bitmap f } ∨
      ¬Present (s.entry d (pdIndex va)) ∧
        ∃ g, TableSet d (pdIndex va) g flags { s with bitmap := bitmapSet s.bitmap f } b)
    (hwell : WellFormed d b) (hpresent : Present (b.entry d (pdIndex va)))
    (ht : EntrySet (b.entry d (pdIndex va) / 4096) (ptIndex va) (f * 4096 ||| (flags &&& 0xFFF) ||| 0x01) b t) :
    Returns (freePage va t) (Restores d va s) := by
  have hp := pdIndex_below hva
  have hpoints := points_pte (hf.lt.trans (by decide) : f < 2 ^ 20) flags
  have hmapped := hwell.with_entry hp hpresent ht
  have hself := hwell.walk_entrySet_self hp hpresent ht haligned (show 0 < 4096 by decide)
  rw [if_pos hpoints.present, hpoints.frame, Nat.add_zero, Nat.add_zero] at hself
  obtain ⟨v, hv, hnone, hothers, hbitmap, hcr3, hdir⟩ := hmapped.unmapPage_returns hva haligned
  unfold freePage
  rw [get_physaddr_agrees d t hmapped.window va (below_word hva), ok_bind, hself, Option.getD_some,
    if_neg (frame_ne_zero hlow), hv, ok_bind]
  have hpde : v.entry d (pdIndex va) = b.entry d (pdIndex va) := by
    rw [hdir _ (by omega), (hwell.pteOf_entrySet hp hpresent ht).1]
  have hfree : (v.free (f * 4096)).bitmap = physFreeFrame (f * 4096) b.bitmap := by
    unfold PagingState.free
    rw [hbitmap, ht.within.bitmap]
  refine returns_ok ⟨fun va' hva' hwindow => ?_, fun hold => ?_, fun habsent => ?_⟩
  · change walk v.mem v.cr3 va' = _
    by_cases hpage : va' / 4096 = va / 4096
    · obtain ⟨o, ho, rfl⟩ : ∃ o < 4096, va' = va + o := ⟨va' - va, by omega, by omega⟩
      rw [hnone o ho, walk_offset h.window.cr3 haligned ho, if_neg]
      intro hmaps
      rw [walk_cr3 h.window.cr3, if_pos hmaps] at hunmapped
      cases hunmapped
    · rw [hothers va' hva' hpage, hwell.walk_entrySet hp hpresent ht hva' (mt samePage_iff.mpr hpage)]
      rcases hb with ⟨-, rfl⟩ | ⟨habsent, g, htable⟩
      · rfl
      · have hmarked := h.with_mark f
        exact hmarked.walk_tableSet habsent htable hva' fun hat => habsent (hwindow ((getPt_window _ hp va').mpr hat))
  · obtain ⟨-, rfl⟩ := hb.resolve_right fun hc => hc.1 hold
    rw [hfree]
    exact bitmap_returned hlow hf.lt hf.clear fun x => bitmapTest_set
  · obtain ⟨-, g, htable⟩ := hb.resolve_left fun hc => habsent hc.1
    obtain ⟨hg, hback⟩ := bitmap_behind hf hlow htable.new
    have hshown : Present (v.entry d (pdIndex va)) ∧ v.entry d (pdIndex va) / 4096 = g := by
      rw [hpde, htable.points.frame]
      exact ⟨hpresent, rfl⟩
    refine ⟨g, hg, ?_, hshown.1, hshown.2, fun o ho => ?_⟩
    · rw [hfree, htable.bitmap, hback]
    · have hwindow : Window v d := hmapped.window.congr hcr3 (hdir 1023 (by decide))
      have hshows := hwindow.shows_pt (show pdIndex va < 1024 by omega) hshown.1
      rw [hshown.2] at hshows
      exact hshows.walk_eq ho

/-- An `alloc_page` of a page other than the first that answers null has changed nothing, and `free_page` restores
what an `alloc_page` of an unmapped page has changed, but for a new page table. -/
theorem alloc_page_atomic (d : ℕ) (s : PagingState) (h : WellFormed d s) (va flags : ℕ) (hva : va < recursivePtBase) :
    (va ≠ 0 → Returns (allocPage va flags s) fun r => r.1 = 0 → r.2 = s) ∧
    (va % 4096 = 0 → 2 ^ 22 ≤ va → walk s.mem s.cr3 va = none → Returns (allocPage va flags s) fun r =>
      r.1 ≠ 0 → Returns (freePage va r.2) (Restores d va s)) := by
  refine ⟨fun hne => ?_, fun haligned hlow hunmapped => ?_⟩
  · rcases h.allocPage_cases hva flags with ⟨-, hok⟩ | ⟨-, -, t, hok⟩ | ⟨-, f, b, t, -, -, hok, -⟩
    · exact ⟨_, hok, fun _ => rfl⟩
    · exact ⟨_, hok, fun hnull => absurd hnull hne⟩
    · exact ⟨_, hok, fun hnull => absurd hnull hne⟩
  · rcases h.allocPage_cases hva flags with ⟨-, hok⟩ | ⟨hodd, -, -⟩ | ⟨-, f, b, t, hf, hflow, hok, hb, hwell, hpresent, ht⟩
    · exact ⟨_, hok, fun hsome => absurd rfl hsome⟩
    · exact absurd haligned hodd
    · exact ⟨_, hok, fun _ => h.freePage_restores hva haligned hunmapped hf hflow hb hwell hpresent ht⟩

theorem bootState_has_two : ¬(Full bootState ∨
    ∃ f, NewFrame bootState.bitmap f ∧ Full { bootState with bitmap := bitmapSet bootState.bitmap f }) := by
  rintro (hfull | ⟨f, -, hfull⟩)
  · exact bootState_not_full hfull
  · have hfree : ∀ x, 1024 ≤ x → x < physTotalFrames → x = f := by
      intro x hx hx'
      have hmarked := hfull x hx'
      unfold InUse at hmarked
      rw [bitmapTest_set, (bootState_clear hx hx').clear, Bool.false_or, decide_eq_true_iff] at hmarked
      exact hmarked
    exact absurd ((hfree 2048 (by decide) (by decide)).trans (hfree 2049 (by decide) (by decide)).symm) (by decide)

theorem bootState_unmapped : walk bootState.mem bootState.cr3 0x00400000 = none := by
  rw [walk_cr3 bootState_window.cr3, if_neg]
  rintro ⟨hpresent, -⟩
  exact bootState_absent (i := pdIndex 0x00400000) (by decide) (by decide) (by decide) hpresent

/-- Page 0 is mapped, and null is the answer; and behind the first page of a page table, the window shows the table even
when the page is free again. -/
theorem alloc_page_leaves_table : WellFormed (sampleLayout.dir 0) bootState ∧
    (∃ t, allocPage 0 3 bootState = .ok (0, t) ∧ t.bitmap ≠ bootState.bitmap) ∧
    ∃ t u, allocPage 0x00400000 3 bootState = .ok (0x00400000, t) ∧ freePage 0x00400000 t = .ok u ∧
      walk bootState.mem bootState.cr3 (getPt 1) = none ∧ walk u.mem u.cr3 (getPt 1) ≠ none := by
  have h := bootState_wellFormed
  have hindex : pdIndex 0x00400000 = 1 := by decide
  refine ⟨h, ?_, ?_⟩
  · rcases h.allocPage_cases (by decide : 0 < recursivePtBase) 3 with ⟨hfull, -⟩ | ⟨hodd, -⟩ | ⟨-, f, b, t, hf, -, hok, hb, -, -, ht⟩
    · exact absurd (hfull rfl) bootState_has_two
    · exact absurd rfl hodd
    · have hpresent : Present (bootState.entry (sampleLayout.dir 0) (pdIndex 0)) := by
        rw [bootState_entry (by decide)]
        decide
      obtain ⟨-, rfl⟩ := hb.resolve_right fun hc => hc.1 hpresent
      refine ⟨t, hok, fun hsame => ?_⟩
      have hmarked : bitmapTest t.bitmap f = true := by
        rw [ht.within.bitmap, bitmapTest_set, decide_eq_true rfl, Bool.or_true]
      rw [hsame, hf.clear] at hmarked
      cases hmarked
  · have habsent : ¬Present (bootState.entry (sampleLayout.dir 0) (pdIndex 0x00400000)) :=
      bootState_absent (by decide) (by decide) (by decide)
    rcases h.allocPage_cases (by decide : 0x00400000 < recursivePtBase) 3 with
      ⟨hfull, -⟩ | ⟨hodd, -⟩ | ⟨-, f, b, t, hf, hlow, hok, hb, hwell, hpresent, ht⟩
    · exact absurd (hfull (by decide)) bootState_has_two
    · exact absurd (by decide) hodd
    · obtain ⟨u, hu, hrestores⟩ := h.freePage_restores (by decide) (by decide) bootState_unmapped hf hlow hb hwell hpresent ht
      obtain ⟨g, -, -, -, -, hshown⟩ := hrestores.table habsent
      refine ⟨t, u, hok, hu, ?_, ?_⟩
      · have hmissing : walk bootState.mem bootState.cr3 (getPt 1) = none := by
          have hpd : pdIndex (getPt 1) = 1023 := by decide
          have hpt : ptIndex (getPt 1) = 1 := by decide
          rw [walk_cr3 h.window.cr3, hpd, hpt, if_neg]
          rintro ⟨-, hpte⟩
          rw [h.window.self] at hpte
          exact habsent hpte
        exact hmissing
      · have hsome := hshown 0 (by decide)
        rw [hindex, Nat.add_zero] at hsome
        rw [hsome]
        exact Option.some_ne_none _

/-- A page behind the first 4 MiB comes and goes. -/
theorem alloc_page_atomic_first : ∃ t, allocPage 0x00400000 3 bootState = .ok (0x00400000, t) ∧
    Returns (freePage 0x00400000 t) (Restores (sampleLayout.dir 0) 0x00400000 bootState) := by
  obtain ⟨hnull, hfree⟩ := alloc_page_atomic _ _ bootState_wellFormed 0x00400000 3 (by decide)
  obtain ⟨r, hok, hrest⟩ := hfree (by decide) (by decide) bootState_unmapped
  obtain ⟨r', hok', hsame⟩ := hnull (by decide)
  obtain rfl := Except.ok.inj (hok.symm.trans hok')
  rcases bootState_wellFormed.allocPage_cases (by decide : 0x00400000 < recursivePtBase) 3 with
    ⟨hfull, -⟩ | ⟨hodd, -⟩ | ⟨-, f, b, t, -, -, hok', -⟩
  · exact absurd (hfull (by decide)) bootState_has_two
  · exact absurd (by decide) hodd
  · obtain rfl := Except.ok.inj (hok.symm.trans hok')
    exact ⟨t, hok, hrest (show 0x00400000 ≠ 0 by decide)⟩

/-! ### Ring 3 -/

/-- The page may be accessed in Ring 3: both entries have `PAGE_USER`. -/
def UserAccess (d va : ℕ) (s : PagingState) : Prop :=
  s.entry d (pdIndex va) &&& pageUser ≠ 0 ∧ pteOf s d va &&& pageUser ≠ 0

theorem user_of_points (f : ℕ) {fl : ℕ} : (f * 4096 ||| fl) &&& pageUser = fl &&& pageUser := by
  have hframe : f * 4096 &&& pageUser = 0 := by
    have hmask : f * 4096 &&& pageUser = f * 4096 &&& 0xFFF &&& pageUser := by
      rw [Nat.land_assoc]
      rfl
    rw [hmask, and_offset, Nat.mul_mod_left, Nat.zero_and]
  rw [Nat.and_or_distrib_right, hframe, Nat.zero_or]

/-- A page mapped with `PAGE_USER` may be accessed in Ring 3 where its page table was missing, or entered for Ring 3. -/
theorem map_page_user_iff (d : ℕ) (s : PagingState) (h : WellFormed d s) (phys va flags : ℕ) (hphys : phys < wordSize)
    (haligned : phys % 4096 = 0 ∧ va % 4096 = 0) (hva : va < recursivePtBase) (huser : flags &&& pageUser ≠ 0) :
    Returns (mapPage phys va flags s) fun t => (Mapped t.mem t.cr3 va → UserAccess d va t) ↔
      ¬Present (s.entry d (pdIndex va)) ∨ s.entry d (pdIndex va) &&& pageUser ≠ 0 := by
  obtain ⟨f, rfl⟩ : ∃ f, phys = f * 4096 := ⟨phys / 4096, by omega⟩
  have hf : f < 2 ^ 20 := by
    simp only [wordSize] at hphys
    omega
  have hp := pdIndex_below hva
  rcases h.mapPage_cases hva haligned.2 hf flags with ⟨habsent, -, hok⟩ | ⟨b, t, hok, hb, hwell, hpresent, ht⟩
  · refine ⟨s, hok, iff_of_true (fun hmapped => absurd hmapped ?_) (.inl habsent)⟩
    unfold Mapped
    rw [walk_cr3 h.window.cr3, if_neg fun hmaps => habsent hmaps.1]
    exact Bool.false_ne_true
  · refine ⟨t, hok, ?_⟩
    have hmapped : Mapped t.mem t.cr3 va := by
      have hself := hwell.walk_entrySet_self hp hpresent ht haligned.2 (show 0 < 4096 by decide)
      rw [if_pos (points_pte hf flags).present, Nat.add_zero] at hself
      unfold Mapped
      rw [hself]
      rfl
    obtain ⟨hpde, hpte⟩ := hwell.pteOf_entrySet hp hpresent ht
    have hpteUser : pteOf t d va &&& pageUser ≠ 0 := by
      rw [hpte, Nat.or_assoc, user_of_points, Nat.and_or_distrib_right]
      have hmask : flags &&& 0xFFF &&& pageUser = flags &&& pageUser := by
        rw [Nat.land_assoc]
        rfl
      rw [hmask]
      exact fun hzero => huser (Nat.or_eq_zero_iff.mp hzero).1
    dsimp only [UserAccess]
    rw [forall_prop_of_true hmapped, and_iff_left hpteUser, hpde]
    rcases hb with ⟨hold, rfl⟩ | ⟨habsent, g, htable⟩
    · exact ⟨.inr, fun hor => hor.resolve_left (not_not.mpr hold)⟩
    · refine iff_of_true ?_ (.inl habsent)
      rw [htable.pde, user_of_points, Nat.and_or_distrib_right, Nat.land_assoc]
      exact fun hzero => huser (Nat.or_eq_zero_iff.mp hzero).2

/-- `paging_init` entered the first page table for Ring 0. -/
theorem map_page_user_fails : ¬∀ (d : ℕ) (s : PagingState), WellFormed d s → ∀ phys va flags t, phys < wordSize →
    phys % 4096 = 0 → va % 4096 = 0 → va < recursivePtBase → flags &&& pageUser ≠ 0 → mapPage phys va flags s = .ok t →
      Mapped t.mem t.cr3 va → UserAccess d va t := by
  intro hall
  have h := bootState_wellFormed
  have hpresent : Present (bootState.entry (sampleLayout.dir 0) (pdIndex 0x1000)) := by
    rw [bootState_entry (by decide)]
    decide
  rcases h.mapPage_cases (by decide : 0x1000 < recursivePtBase) (by decide) (by decide : 1 < 2 ^ 20) 7 with
    ⟨habsent, -, -⟩ | ⟨b, t, hok, hb, hwell, hpresent', ht⟩
  · exact habsent hpresent
  obtain ⟨-, rfl⟩ := hb.resolve_right fun hc => hc.1 hpresent
  have hmapped : Mapped t.mem t.cr3 0x1000 := by
    have hself := hwell.walk_entrySet_self (by decide : pdIndex 0x1000 < 1023) hpresent' ht (by decide) (show 0 < 4096 by decide)
    rw [if_pos (points_pte (by decide) 7).present] at hself
    unfold Mapped
    rw [hself]
    rfl
  obtain ⟨huser, -⟩ := hall _ _ h (1 * 4096) 0x1000 7 t (by decide) (by decide) (by decide) (by decide) (by decide) hok hmapped
  rw [(hwell.pteOf_entrySet (by decide : pdIndex 0x1000 < 1023) hpresent' ht).1, bootState_entry (by decide)] at huser
  exact huser (by decide)

/-- The first page behind the first 4 MiB brings a page table of its own. -/
theorem map_page_user_first : ∃ t, mapPage 0x00800000 0x00400000 7 bootState = .ok t ∧
    (Mapped t.mem t.cr3 0x00400000 → UserAccess (sampleLayout.dir 0) 0x00400000 t) := by
  obtain ⟨t, hok, hiff⟩ := map_page_user_iff _ _ bootState_wellFormed 0x00800000 0x00400000 7 (by decide) (by decide)
    (by decide) (by decide)
  exact ⟨t, hok, hiff.mpr (.inl (bootState_absent (by decide) (by decide) (by decide)))⟩

end HekaOS.Paging
