import HekaOS.ForkCopy
import HekaOS.FrameExclusivity

/-!
# A forked address space is a private copy

Where every mapped frame is marked and mapped once, `paging_proc_init` and `paging_fork_copy` leave a
child whose user half reads like the parent's, from frames that were free. The ledger of frames
then keeps the two apart: what is written through one directory is not seen through the other.
-/

namespace HekaOS.Paging
open MachineWord KernelMemory KernelTriples ByteMemory PageWalk WordBitmap PhysPageFrame AddressMap
open Tasks (maxProc pageSize)

variable {L : Layout} {s t : PagingState} {owner : ℕ → Owner} {T : Finset ℕ}
  {a child cur d f i j K p pid q va A B : ℕ}

/-! ### Mapped once -/

/-- An entry of the identity map of the first 4 MiB. -/
def Reference.OfFirst (L : Layout) : Reference → Prop
  | .pde _ i => i = 0
  | .pte K _ => K = L.fptFrame

/-- `page_directories[cur]` is current and open to the kernel, the first 4 MiB are reserved and mapped to
themselves only, and every other frame that an entry leads to is marked, with one entry for it. -/
structure Exclusive (L : Layout) (cur : ℕ) (s : PagingState) : Prop where
  cur_lt : cur < maxProc
  cr3 : s.cr3 = L.pageDirectory cur
  window : Present (s.entry (L.dir cur) 1023)
  reserved : ∀ f < reservedFrames, bitmapTest s.bitmap f = true
  identity : ∀ j < 1024, s.entry L.fptFrame j / 4096 < reservedFrames
  first : ∀ pid < maxProc, Present (s.entry (L.dir pid) 0) → s.entry (L.dir pid) 0 / 4096 = L.fptFrame
  self : ∀ pid < maxProc, Present (s.entry (L.dir pid) 1023) → s.entry (L.dir pid) 1023 / 4096 = L.dir pid
  low : ∀ f r, Refers L s f r → f < reservedFrames → r.OfFirst L
  used : ∀ f r, Refers L s f r → reservedFrames ≤ f → f < physTotalFrames ∧ bitmapTest s.bitmap f = true
  once : ∀ f r r', Refers L s f r → Refers L s f r' → reservedFrames ≤ f → r' = r

namespace Exclusive

open Classical in
/-- The owner of a frame is read off the entry that leads to it. -/
noncomputable def ledger (L : Layout) (s : PagingState) (f : ℕ) : Owner :=
  if h : reservedFrames ≤ f ∧ ∃ r, Refers L s f r then h.2.choose.served else .free

theorem ledger_eq (h : Exclusive L cur s) {r : Reference} (hf : reservedFrames ≤ f) (hr : Refers L s f r) :
    ledger L s f = r.served := by
  have hex : reservedFrames ≤ f ∧ ∃ r, Refers L s f r := ⟨hf, r, hr⟩
  unfold ledger
  rw [dif_pos hex, h.once f r _ hr hex.2.choose_spec hf]

theorem of_ledger (hne : ledger L s f ≠ .free) :
    reservedFrames ≤ f ∧ ∃ r, Refers L s f r ∧ ledger L s f = r.served := by
  unfold ledger at hne ⊢
  split at hne
  · rename_i hex
    rw [dif_pos hex]
    exact ⟨hex.1, _, hex.2.choose_spec, rfl⟩
  · exact absurd rfl hne

/-- The frames behind the entries of a directory, but for the first and the last, are not reserved. -/
theorem refers_pde (h : Exclusive L cur s) (hpid : pid < maxProc) (hi : 0 < i) (hi' : i < 1023)
    (hpresent : Present (s.entry (L.dir pid) i)) : reservedFrames ≤ s.entry (L.dir pid) i / 4096 ∧
      Refers L s (s.entry (L.dir pid) i / 4096) (.pde (if i < 768 then some pid else none) i) := by
  have hrefers : Refers L s (s.entry (L.dir pid) i / 4096) (.pde (if i < 768 then some pid else none) i) :=
    .pde hpid hi' hpresent rfl
  refine ⟨?_, hrefers⟩
  by_contra hlt
  exact hi.ne' (h.low _ _ hrefers (Nat.not_le.mp hlt))

theorem sound (h : Exclusive L cur s) : Sound L cur s (ledger L s) := by
  refine ⟨⟨fun f hf => ?_, h.reserved, h.identity, fun pid hpid i hi hpresent => ?_,
    fun K i pid hK j hj hscratch hpresent => ?_⟩, h.cur_lt, h.cr3⟩
  · obtain ⟨hlow, r, hr, -⟩ := of_ledger hf
    exact ⟨hlow, h.used f r hr hlow⟩
  · refine ⟨fun h0 => ?_, fun hlast => ?_, fun hpos hlt => ?_⟩
    · subst h0
      exact h.first pid hpid hpresent
    · subst hlast
      exact h.self pid hpid hpresent
    · obtain ⟨hlow, hrefers⟩ := h.refers_pde hpid hpos hlt hpresent
      rw [h.ledger_eq hlow hrefers]
      by_cases huser : i < 768
      · simp only [huser, ↓reduceIte, Reference.served, tableOf, Option.getD_some]
      · simp only [huser, ↓reduceIte, Reference.served, tableOf, Option.getD_none]
  · have hne : ledger L s K ≠ .free := by
      rw [hK]
      exact nofun
    obtain ⟨hlow, r, hr, hserved⟩ := of_ledger hne
    rw [hK] at hserved
    cases hr with
    | @pte pid' i' j' => cases hserved
    | @pde pid' i' hpid' hi' hpde hlead =>
      obtain ⟨rfl, -⟩ := Owner.table.inj hserved
      rw [← hlead] at hpresent ⊢
      have hrefers : Refers L s (s.entry (s.entry (L.dir pid') i / 4096) j / 4096)
          (.pte (s.entry (L.dir pid') i / 4096) j) := .pte hpid' hi' hpde hj hscratch hpresent rfl
      refine h.ledger_eq ?_ hrefers
      by_contra hlt
      have hfirst : s.entry (L.dir pid') i / 4096 = L.fptFrame := h.low _ _ hrefers (Nat.not_le.mp hlt)
      have hfpt := L.fpt_low
      omega

end Exclusive

/-- The ledger says that every mapped frame is mapped once. -/
theorem Sound.exclusive (h : Sound L cur s owner) (hwindow : Present (s.entry (L.dir cur) 1023)) :
    Exclusive L cur s := by
  refine ⟨h.cur_lt, h.cr3, hwindow, h.owned.reserved, h.owned.fpt,
    fun pid hpid hpresent => (h.owned.pde pid hpid 0 (by decide) hpresent).first rfl,
    fun pid hpid hpresent => (h.owned.pde pid hpid 1023 (by decide) hpresent).self rfl, fun f r hr hlow => ?_,
    fun f r hr hlow => ?_, fun f r r' hr hr' hlow => h.refers_unique hlow hr hr'⟩
  · cases hr with
    | @pde pid i hpid hi hpresent hf =>
      by_contra hpos
      have hpos : 0 < i := Nat.pos_of_ne_zero hpos
      have hown := h.owned.owner_table hpid hpos hi hpresent
      have hge := (h.owned.used _ (Owned.owner_ne_free hown)).1
      omega
    | @pte pid i j hpid hi hpde hj hscratch hpresent hf =>
      rcases Nat.eq_zero_or_pos i with h0 | hpos
      · subst h0
        exact (h.owned.pde pid hpid 0 (by decide) hpde).first rfl
      · have hown := h.owned.owner_table hpid hpos hi hpde
        have hpage := h.owned.pte _ _ _ hown j hj hscratch hpresent
        rw [hf] at hpage
        have hge := (h.owned.used f (Owned.page_ne_free hpage)).1
        omega
  · have hown := h.owner_of_refers hlow hr
    exact (h.owned.used f (Reference.served_ne_free hown)).2

/-! ### What the fork finds -/

theorem Sound.aside (h : Sound L cur s owner) (hchild : child < maxProc) (hK : owner K = tableOf cur kstackPdeIndex)
    (hf : owner f ≠ .free) (hne : owner f ≠ tableOf cur kstackPdeIndex) : Aside (L.dir child) K s f := by
  refine ⟨(h.owned.used f hf).2.2, h.owned.ne_dir hf hchild, ?_⟩
  rintro rfl
  exact hne hK

/-- The ledger tells the frames apart that the copy stores to. -/
theorem Sound.site (h : Sound L cur s owner) (hwindow : Present (s.entry (L.dir cur) 1023))
    (hkstack : Present (s.entry (L.dir cur) kstackPdeIndex)) (hchild : child < maxProc) (hother : child ≠ cur) :
    Site (L.dir cur) (L.dir child) (s.entry (L.dir cur) kstackPdeIndex / 4096) s := by
  have hindex : kstackPdeIndex = 956 := by decide
  have hK := h.owned.owner_table h.cur_lt (by decide) (by decide) hkstack
  have hKfree := Owned.owner_ne_free hK
  have hdir : L.dir cur ≠ L.dir child := fun he => hother (dir_inj he).symm
  have htable : ∀ p, 0 < p → p < 768 → Present (s.entry (L.dir cur) p) →
      owner (s.entry (L.dir cur) p / 4096) = tableOf cur p := fun p hp hp' hpresent =>
    h.owned.owner_table h.cur_lt hp (by omega) hpresent
  refine ⟨⟨h.homed.window hwindow, hkstack, rfl, h.owned.ne_dir hKfree h.cur_lt⟩, h.owned.reserved,
    ⟨h.owned.reserved _ (dir_lt h.cur_lt), hdir, (h.owned.ne_dir hKfree h.cur_lt).symm⟩,
    ⟨h.owned.reserved _ (dir_lt hchild), (h.owned.ne_dir hKfree hchild).symm⟩, (h.owned.used _ hKfree).2.2,
    fun p hp hp' hpresent => ?_, fun p hp hp' hpresent q hq hpte => ?_⟩
  · have hown := htable p hp hp' hpresent
    refine h.aside hchild hK (Owned.owner_ne_free hown) ?_
    rw [hown]
    intro he
    have := (Owner.table.inj he).1
    omega
  · have hscratch : ¬Scratch p q := fun hc => by
      have := (scratch_iff.mp hc).1
      omega
    have hpage := h.owned.pte _ _ _ (htable p hp hp' hpresent) q hq hscratch hpte
    refine h.aside hchild hK (Owned.page_ne_free hpage) ?_
    rw [hpage]
    exact nofun

/-! ### Translations -/

/-- The entry of the page table that translates an address. -/
def pteOf (s : PagingState) (d va : ℕ) : ℕ := s.entry (s.entry d (pdIndex va) / 4096) (ptIndex va)

instance (s : PagingState) (d p q : ℕ) : Decidable (Maps s d p q) := inferInstanceAs (Decidable (_ ∧ _))

theorem walk_dir (s : PagingState) (d va : ℕ) : walk s.mem (d * 4096) va =
    if Maps s d (pdIndex va) (ptIndex va) then
      some (pteOf s d va / 4096 * 4096 + va % 4096) else none := by
  have hpde : load32 s.mem (d * 4096 + 4 * pdIndex va) = s.entry d (pdIndex va) := rfl
  have hpte : load32 s.mem (frameAddr (s.entry d (pdIndex va)) + 4 * ptIndex va) =
      s.entry (s.entry d (pdIndex va) / 4096) (ptIndex va) := rfl
  unfold walk Maps
  rw [hpde]
  dsimp only
  rw [hpte]
  by_cases hp : Present (s.entry d (pdIndex va))
  · by_cases hq : Present (s.entry (s.entry d (pdIndex va) / 4096) (ptIndex va))
    · simp only [hp, hq, and_self, ↓reduceIte, frameAddr, pteOf]
    · simp only [hp, hq, and_false, ↓reduceIte]
  · simp only [hp, false_and, ↓reduceIte]

theorem walk_eq_some : walk s.mem (d * 4096) va = some a ↔ Maps s d (pdIndex va) (ptIndex va) ∧
    a = pteOf s d va / 4096 * 4096 + va % 4096 := by
  rw [walk_dir]
  split
  · rename_i hmaps
    simp only [Option.some.injEq, hmaps, true_and]
    exact eq_comm
  · rename_i hmaps
    simp only [reduceCtorEq, hmaps, false_and]

/-- An address of the user half. -/
structure UserVa (va : ℕ) : Prop where
  above : 0x00400000 ≤ va
  below : va < 0xC0000000

theorem UserVa.index (h : UserVa va) : 0 < pdIndex va ∧ pdIndex va < 768 := by
  have := h.above
  have := h.below
  unfold pdIndex
  omega

/-- The same byte is stored through one directory, and nothing changes through the other. -/
def Hidden (m : Memory) (writer reader : ℕ) : Prop :=
  ∀ va a v, UserVa va → walk m writer va = some a → ∀ va', UserVa va' →
    walk (store8 m a v) reader va' = walk m reader va' ∧
      ∀ a', walk m reader va' = some a' → store8 m a v a' = m a'

/-- The user pages of two directories are in different frames, and none of them is a table. -/
theorem Sound.hidden (h : Sound L cur s owner) (hA : A < maxProc) (hB : B < maxProc) (hne : A ≠ B) :
    Hidden s.mem (L.pageDirectory A) (L.pageDirectory B) := by
  intro va a v hva ha va' hva'
  have hscratch : ∀ {va}, UserVa va → ¬Scratch (pdIndex va) (ptIndex va) := fun hva hc => by
    have hindex := (scratch_iff.mp hc).1
    have : kstackPdeIndex = 956 := by decide
    have := hva.index
    omega
  have howner : ∀ {pid va}, pid < maxProc → UserVa va → Maps s (L.dir pid) (pdIndex va) (ptIndex va) →
      owner (s.entry (L.dir pid) (pdIndex va) / 4096) = .table (pdIndex va) pid ∧
      owner (pteOf s (L.dir pid) va / 4096) = .page (s.entry (L.dir pid) (pdIndex va) / 4096) (ptIndex va) := by
    intro pid va hpid hva hmaps
    have hown := h.owned.owner_table hpid hva.index.1 (by have := hva.index.2; omega) hmaps.1
    rw [Working.tableOf_user hva.index.2] at hown
    exact ⟨hown, h.owned.pte _ _ _ hown _ (ptIndex_lt va) (hscratch hva) hmaps.2⟩
  obtain ⟨hmaps, rfl⟩ := walk_eq_some.mp ha
  obtain ⟨htable, hpage⟩ := howner hA hva hmaps
  -- the store stays in one frame, which holds no table of the reader and none of its pages
  obtain ⟨g, hg⟩ : ∃ g, pteOf s (L.dir A) va / 4096 = g := ⟨_, rfl⟩
  rw [hg] at hpage
  have hgfree := Owned.page_ne_free hpage
  have hwithin : Within g s { s with mem := store8 s.mem (g * 4096 + va % 4096) v } :=
    within_store8 (Nat.mod_lt _ (by decide))
  have hdir : L.dir B ≠ g := (h.owned.ne_dir hgfree hB).symm
  have hindex : pdIndex va' < 1024 := by
    have := hva'.index.2
    omega
  have hpde := hwithin.entry hdir hindex
  rw [hg]
  have hpte : Present (s.entry (L.dir B) (pdIndex va')) →
      pteOf { s with mem := store8 s.mem (g * 4096 + va % 4096) v } (L.dir B) va' = pteOf s (L.dir B) va' := by
    intro hpresent
    unfold pteOf
    rw [hpde]
    refine hwithin.entry ?_ (ptIndex_lt va')
    intro he
    have hown := h.owned.owner_table hB hva'.index.1 (by have := hva'.index.2; omega) hpresent
    rw [he, hpage] at hown
    cases hown
  have hmaps' : Maps { s with mem := store8 s.mem (g * 4096 + va % 4096) v } (L.dir B) (pdIndex va') (ptIndex va') ↔
      Maps s (L.dir B) (pdIndex va') (ptIndex va') := by
    unfold Maps
    rw [hpde]
    refine and_congr_right fun hpresent => ?_
    have hsame := hpte hpresent
    unfold pteOf at hsame
    rw [hpde] at hsame
    rw [hsame]
  constructor
  · change walk ({ s with mem := store8 s.mem (g * 4096 + va % 4096) v } : PagingState).mem (L.dir B * 4096) va' =
      walk s.mem (L.dir B * 4096) va'
    rw [walk_dir, walk_dir]
    by_cases hm : Maps s (L.dir B) (pdIndex va') (ptIndex va')
    · rw [if_pos hm, if_pos (hmaps'.mpr hm), hpte hm.1]
    · rw [if_neg hm, if_neg fun hc => hm (hmaps'.mp hc)]
  · intro a' ha'
    obtain ⟨hm, rfl⟩ := walk_eq_some.mp ha'
    obtain ⟨htable', hpage'⟩ := howner hB hva' hm
    have hout : (pteOf s (L.dir B) va' / 4096 * 4096 + va' % 4096) / 4096 ≠ g := by
      have hdiv : (pteOf s (L.dir B) va' / 4096 * 4096 + va' % 4096) / 4096 = pteOf s (L.dir B) va' / 4096 := by omega
      rw [hdiv]
      intro he
      rw [he, hpage] at hpage'
      obtain ⟨hsame, -⟩ := Owner.page.inj hpage'
      rw [hsame, htable'] at htable
      exact hne (Owner.table.inj htable).2.symm
    have hkept := hwithin.mem _ hout
    exact hkept

/-! ### The copy -/

/-- The user half of `page_directories[child]` in `t` reads like that of `page_directories[cur]` in `s`. -/
structure SameUserHalf (L : Layout) (cur child : ℕ) (s t : PagingState) : Prop where
  mapped : ∀ va, UserVa va → (Mapped t.mem (L.pageDirectory child) va ↔ Mapped s.mem (L.pageDirectory cur) va)
  flags : ∀ va, UserVa va → Mapped s.mem (L.pageDirectory cur) va →
    pteOf t (L.dir child) va % 4096 = pteOf s (L.dir cur) va % 4096
  bytes : ∀ va a a', UserVa va → walk s.mem (L.pageDirectory cur) va = some a →
    walk t.mem (L.pageDirectory child) va = some a' → t.mem a' % 256 = s.mem a % 256

/-- A frame of the user half of a directory: a page table or a page behind one. -/
inductive UserFrame (L : Layout) (s : PagingState) (pid f : ℕ) : Prop where
  | table {p : ℕ} (hp : 0 < p) (hp' : p < 768) (hpresent : Present (s.entry (L.dir pid) p))
      (hf : s.entry (L.dir pid) p / 4096 = f)
  | page {p q : ℕ} (hp : 0 < p) (hp' : p < 768) (hpresent : Present (s.entry (L.dir pid) p)) (hq : q < 1024)
      (hpte : Present (s.entry (s.entry (L.dir pid) p / 4096) q))
      (hf : s.entry (s.entry (L.dir pid) p / 4096) q / 4096 = f)

/-- The parent's tables and pages are as they were, and so is what every other directory but the
child's maps, the two scratch pages apart. -/
structure OthersKept (L : Layout) (cur child : ℕ) (s t : PagingState) : Prop where
  cr3 : t.cr3 = s.cr3
  pdes : ∀ p < 1024, t.entry (L.dir cur) p = s.entry (L.dir cur) p
  ptes : ∀ p, 0 < p → p < 768 → Present (s.entry (L.dir cur) p) → ∀ q < 1024,
    t.entry (s.entry (L.dir cur) p / 4096) q = s.entry (s.entry (L.dir cur) p / 4096) q
  bytes : ∀ va a, UserVa va → walk s.mem (L.pageDirectory cur) va = some a → t.mem a = s.mem a
  walks : ∀ pid < maxProc, pid ≠ child → ∀ va < wordSize, ¬Scratch (pdIndex va) (ptIndex va) →
    walk t.mem (L.pageDirectory pid) va = walk s.mem (L.pageDirectory pid) va

theorem mapped_dir : Mapped s.mem (d * 4096) va ↔ Maps s d (pdIndex va) (ptIndex va) := by
  unfold Mapped
  rw [walk_dir]
  split
  · rename_i hmaps
    exact iff_of_true rfl hmaps
  · rename_i hmaps
    exact iff_of_false (by simp) hmaps

theorem sameUserHalf_of_tables
    (htables : ∀ p, 0 < p → p < 768 → TableCopied T s t (L.dir cur) (L.dir child) p) :
    SameUserHalf L cur child s t := by
  have hpage : ∀ {va}, UserVa va → Present (s.entry (L.dir cur) (pdIndex va)) →
      PageCopied T s t (s.entry (L.dir cur) (pdIndex va) / 4096) (t.entry (L.dir child) (pdIndex va) / 4096)
        (ptIndex va) := fun hva hpresent =>
    (htables _ hva.index.1 hva.index.2).pages hpresent _ (ptIndex_lt _)
  have hmapped : ∀ {va}, UserVa va → (Maps t (L.dir child) (pdIndex va) (ptIndex va) ↔
      Maps s (L.dir cur) (pdIndex va) (ptIndex va)) := by
    intro va hva
    have htable := htables _ hva.index.1 hva.index.2
    unfold Maps
    rw [htable.present]
    exact and_congr_right fun hpresent => (hpage hva hpresent).present
  refine ⟨fun va hva => ?_, fun va hva hmaps => ?_, fun va a a' hva ha ha' => ?_⟩
  · exact mapped_dir.trans ((hmapped hva).trans mapped_dir.symm)
  · have hmaps := mapped_dir.mp hmaps
    exact (hpage hva hmaps.1).flags hmaps.2
  · obtain ⟨hmaps, rfl⟩ := walk_eq_some.mp ha
    obtain ⟨-, rfl⟩ := walk_eq_some.mp ha'
    exact (hpage hva hmaps.1).bytes hmaps.2 _ (Nat.mod_lt _ (by decide))

/-- The page tables of a directory are in use, are no other directory, and serve at one index each. -/
theorem Sound.table_place (h : Sound L cur s owner) (hK : owner K = tableOf cur p) (hchild : child < maxProc)
    (hpid : pid < maxProc) (hother : pid ≠ child) (hi : i < 1024) (hpresent : Present (s.entry (L.dir pid) i)) :
    InUse s (s.entry (L.dir pid) i / 4096) ∧ s.entry (L.dir pid) i / 4096 ≠ L.dir child ∧
      (s.entry (L.dir pid) i / 4096 = K → i = p) := by
  have hKfree := Owned.owner_ne_free hK
  have hleads := h.owned.pde pid hpid i hi hpresent
  rcases Nat.eq_zero_or_pos i with h0 | hpos
  · rw [hleads.first h0]
    exact ⟨h.owned.reserved _ L.fpt_low, (dir_ne_fpt hchild).symm, fun he => absurd he.symm (h.owned.ne_fpt hKfree)⟩
  by_cases hlast : i = 1023
  · rw [hleads.self hlast]
    exact ⟨h.owned.reserved _ (dir_lt hpid), fun he => hother (dir_inj he),
      fun he => absurd he.symm (h.owned.ne_dir hKfree hpid)⟩
  have hown := hleads.table hpos (by omega)
  have hXfree := Owned.owner_ne_free hown
  refine ⟨(h.owned.used _ hXfree).2.2, h.owned.ne_dir hXfree hchild, fun he => ?_⟩
  rw [he, hK] at hown
  exact (Owner.table.inj hown).1.symm

/-- A page table of another directory than the child's keeps its entries. -/
theorem Sound.table_kept (h : Sound L cur s owner) (hK : owner K = tableOf cur kstackPdeIndex)
    (hchild : child < maxProc) (ht : Touched {K, L.dir child} T s t) (hscratch : ScratchOnly K s t)
    (hpid : pid < maxProc) (hother : pid ≠ child) (hi : i < 1024) (hq : q < 1024) (hns : ¬Scratch i q)
    (hpresent : Present (s.entry (L.dir pid) i)) :
    t.entry (s.entry (L.dir pid) i / 4096) q = s.entry (s.entry (L.dir pid) i / 4096) q := by
  obtain ⟨hused, hdir, hindex⟩ := h.table_place hK hchild hpid hother hi hpresent
  by_cases hXK : s.entry (L.dir pid) i / 4096 = K
  · -- the table of the kernel stacks: only the scratch entries may differ
    have hne : ∀ va, ScratchVa va → q ≠ ptIndex va := fun va hva he =>
      hns ⟨va, hva, (Working.scratch_pdIndex hva).trans (hindex hXK).symm, he.symm⟩
    rw [hXK]
    exact hscratch q hq (hne _ (.inl rfl)) (hne _ (.inr rfl))
  · exact ht.entry hused (Aside.out ⟨hused, hdir, hXK⟩) hq

/-- The translation is found in the entries of the two tables, where they are present. -/
theorem walk_congr_entries (hpde : t.entry d (pdIndex va) = s.entry d (pdIndex va))
    (hpte : Present (s.entry d (pdIndex va)) → pteOf t d va = pteOf s d va ∨
      ¬Present (pteOf t d va) ∧ ¬Present (pteOf s d va)) : walk t.mem (d * 4096) va = walk s.mem (d * 4096) va := by
  have hmaps : ∀ u : PagingState, Maps u d (pdIndex va) (ptIndex va) ↔
      Present (u.entry d (pdIndex va)) ∧ Present (pteOf u d va) := fun _ => Iff.rfl
  rw [walk_dir, walk_dir]
  by_cases hpresent : Present (s.entry d (pdIndex va))
  · rcases hpte hpresent with hsame | ⟨habsent, habsent'⟩
    · have hiff : Maps t d (pdIndex va) (ptIndex va) ↔ Maps s d (pdIndex va) (ptIndex va) := by
        rw [hmaps, hmaps, hpde, hsame]
      by_cases hm : Maps s d (pdIndex va) (ptIndex va)
      · rw [if_pos hm, if_pos (hiff.mpr hm), hsame]
      · rw [if_neg hm, if_neg (mt hiff.mp hm)]
    · rw [if_neg fun hc => habsent ((hmaps t).mp hc).2, if_neg fun hc => habsent' ((hmaps s).mp hc).2]
  · rw [if_neg fun hc => hpresent ((hmaps s).mp hc).1, if_neg fun hc => hpresent (hpde ▸ ((hmaps t).mp hc).1)]

theorem Sound.othersKept (h : Sound L cur s owner) (hK : owner K = tableOf cur kstackPdeIndex)
    (hsite : Site (L.dir cur) (L.dir child) K s) (hchild : child < maxProc) (hother : child ≠ cur)
    (ht : Touched {K, L.dir child} T s t) (hscratch : ScratchOnly K s t) : OthersKept L cur child s t := by
  have hKfree := Owned.owner_ne_free hK
  have hdir : ∀ pid < maxProc, pid ≠ child → ∀ i < 1024, t.entry (L.dir pid) i = s.entry (L.dir pid) i := by
    intro pid hpid hne i hi
    have hin := h.owned.reserved _ (dir_lt (L := L) hpid)
    exact ht.entry hin (Aside.out ⟨hin, fun he => hne (dir_inj he), (h.owned.ne_dir hKfree hpid).symm⟩) hi
  refine ⟨ht.cr3, hdir cur h.cur_lt hother.symm, fun p hp hp' hpresent q hq => ?_, fun va a hva ha => ?_,
    fun pid hpid hne va hva hns => ?_⟩
  · have htable := hsite.table p hp hp' hpresent
    exact ht.entry htable.inUse htable.out hq
  · obtain ⟨hmaps, rfl⟩ := walk_eq_some.mp ha
    have hpage := hsite.page _ hva.index.1 hva.index.2 hmaps.1 _ (ptIndex_lt va) hmaps.2
    have hdiv : (pteOf s (L.dir cur) va / 4096 * 4096 + va % 4096) / 4096 = pteOf s (L.dir cur) va / 4096 := by omega
    apply ht.kept
    · rw [hdiv]
      exact hpage.inUse
    · rw [hdiv]
      exact hpage.out
  · have hpde := hdir pid hpid hne _ (pdIndex_lt hva)
    refine walk_congr_entries hpde fun hpresent => .inl ?_
    unfold pteOf
    rw [hpde]
    exact h.table_kept hK hchild ht hscratch hpid hne (pdIndex_lt hva) (ptIndex_lt va) hns hpresent

/-- The frames of the child are those that were taken. -/
theorem UserFrame.taken (htables : ∀ p, 0 < p → p < 768 → TableCopied T s t (L.dir cur) (L.dir child) p)
    (hf : UserFrame L t child f) : f ∈ T := by
  cases hf with
  | table hp hp' hpresent hf =>
    have htable := htables _ hp hp'
    rw [← hf]
    exact htable.frame (htable.present.mp hpresent)
  | page hp hp' hpresent hq hpte hf =>
    have htable := htables _ hp hp'
    have hparent := htable.present.mp hpresent
    have hpage := htable.pages hparent _ hq
    rw [← hf]
    exact hpage.frame (hpage.present.mp hpte)

theorem UserFrame.refers (hchild : child < maxProc) (hf : UserFrame L t child f) : ∃ r, Refers L t f r := by
  have hindex : kstackPdeIndex = 956 := by decide
  cases hf with
  | table hp hp' hpresent hf => exact ⟨_, .pde hchild (by omega) hpresent hf⟩
  | page hp hp' hpresent hq hpte hf =>
    refine ⟨_, .pte hchild (by omega) hpresent hq (fun hc => ?_) hpte hf⟩
    have := (scratch_iff.mp hc).1
    omega

/-- What a fork that went through leaves behind. -/
structure PrivateCopy (L : Layout) (cur child : ℕ) (s t : PagingState) : Prop where
  same : SameUserHalf L cur child s t
  fresh : ∀ f, UserFrame L t child f → NewFrame s.bitmap f ∧ bitmapTest t.bitmap f = true ∧ ∃! r, Refers L t f r
  kept : OthersKept L cur child s t
  unmounted : ∀ va, ScratchVa va → ¬Mapped t.mem t.cr3 va
  toChild : Hidden t.mem (L.pageDirectory cur) (L.pageDirectory child)
  toParent : Hidden t.mem (L.pageDirectory child) (L.pageDirectory cur)

/-- `paging_proc_init` writes the child's directory only, which is not looked at by the copy. -/
theorem ForkCopied.since {s₁ : PagingState} (h : Site d (L.dir child) K s) (hw : Within (L.dir child) s s₁)
    (hcopied : ForkCopied d (L.dir child) K s₁ t T) :
    Touched {K, L.dir child} T s t ∧ ScratchOnly K s t ∧
      ∀ p, 0 < p → p < 768 → TableCopied T s t d (L.dir child) p := by
  have hinit : Touched {K, L.dir child} ∅ s s₁ := (Touched.refl _ s).and_then (Touched.of_within hw) (by simp)
  have htouched := hinit.trans hcopied.touched fun f hf => .inl hf
  rw [Finset.empty_union] at htouched
  refine ⟨htouched, (ScratchOnly.of_within hw h.child.2.symm).trans hcopied.scratch, fun p hp hp' => ?_⟩
  exact (hcopied.tables p hp hp').since h hw hp hp'

theorem pagingProcInit_absent (L : Layout) (child : ℕ) (s : PagingState) :
    ∀ p, 0 < p → p < 768 → ¬Present ((pagingProcInit L child s).entry (L.dir child) p) := by
  intro p hp hp'
  rw [pagingProcInit_user L child s hp hp']
  decide

/-- The frames behind the user half of the child are above the reserved ones. -/
theorem Sound.userFrame_once (h : Sound L cur t owner) (hchild : child < maxProc) (hf : UserFrame L t child f)
    (hlow : reservedFrames ≤ f) : ∃! r, Refers L t f r := by
  obtain ⟨r, hr⟩ := hf.refers hchild
  exact (h.refers_once hlow hr).2

theorem Exclusive.privateCopy (h : Exclusive L cur s) (hkstack : Present (s.entry (L.dir cur) kstackPdeIndex))
    (hchild : child < maxProc) (hother : child ≠ cur)
    (hok : pagingForkCopy L child (pagingProcInit L child s) = .ok (true, t)) : PrivateCopy L cur child s t := by
  have hsound := h.sound
  have hsite := hsound.site h.window hkstack hchild hother
  have hK := hsound.owned.owner_table h.cur_lt (by decide) (by decide) hkstack
  have hw := pagingProcInit_within L child s
  have hinit := hsound.procInit hchild
  have hempty := pagingProcInit_absent L child s
  generalize pagingProcInit L child s = s₁ at hok hw hinit hempty
  have hstep : Touched {s.entry (L.dir cur) kstackPdeIndex / 4096, L.dir child} ∅ s s₁ :=
    (Touched.refl _ s).and_then (Touched.of_within hw) (by simp)
  have hkstack₁ : Present (s₁.entry (L.dir cur) kstackPdeIndex) := by
    rw [hw.entry hsite.dir.ne_child (by decide)]
    exact hkstack
  -- the ledger still covers everything, so that each frame of the child is found once
  obtain ⟨K', owner', ht⟩ := hinit.pagingForkCopy hchild hkstack₁ _ hok
  have ht := ht.toSound
  obtain ⟨a, ha, hpost⟩ := pagingForkCopy_returns (hsite.touched hstep) hempty
  obtain rfl := Except.ok.inj (hok.symm.trans ha)
  obtain ⟨T, hcopied⟩ := hpost
  obtain ⟨htouched, hscratch, htables⟩ := hcopied.since hsite hw
  have hkept := hsound.othersKept hK hsite hchild hother htouched hscratch
  refine ⟨sameUserHalf_of_tables htables, fun f hf => ?_, hkept, fun va hva => ?_, ?_, ?_⟩
  · have hmem := hf.taken htables
    have hnew := htouched.fresh f hmem
    have hlow := hsound.owned.newFrame_ge hnew
    exact ⟨hnew, htouched.inUse_of_mem hmem, ht.userFrame_once hchild hf hlow⟩
  · rw [mapped_iff ht.cr3]
    rintro ⟨hpde, hpte⟩
    rw [Working.scratch_pdIndex hva, hkept.pdes _ (by decide)] at hpte
    exact hcopied.unmounted va hva hpte
  · exact ht.hidden h.cur_lt hchild hother.symm
  · exact ht.hidden hchild h.cur_lt hother

/-- A fork copies the user half of the current directory when there are as many free frames as it has
tables and pages. A copy that went through is faithful and private. -/
theorem fork_copies_privately (L : Layout) (s : PagingState) (cur child : ℕ) (h : Exclusive L cur s)
    (hkstack : Present (s.entry (L.dir cur) kstackPdeIndex)) (hchild : child < maxProc) (hother : child ≠ cur) :
    (forkDemand s (L.dir cur) ≤ physFreeCount s.bitmap →
        ∃ t, pagingForkCopy L child (pagingProcInit L child s) = .ok (true, t)) ∧
      ∀ t, pagingForkCopy L child (pagingProcInit L child s) = .ok (true, t) → PrivateCopy L cur child s t := by
  refine ⟨fun henough => ?_, fun t hok => h.privateCopy hkstack hchild hother hok⟩
  have hsite := h.sound.site h.window hkstack hchild hother
  have hw := pagingProcInit_within L child s
  have hstep := (Touched.refl {s.entry (L.dir cur) kstackPdeIndex / 4096, L.dir child} s).and_then
    (Touched.of_within hw) (by simp)
  have hempty := pagingProcInit_absent L child s
  obtain ⟨⟨ok, t⟩, hok, -⟩ := pagingForkCopy_returns (hsite.touched hstep) hempty
  have hanswer := pagingForkCopy_answer (hsite.touched hstep) hempty hok
  rw [forkDemand_touched hsite hstep, hw.bitmap, decide_eq_true henough] at hanswer
  obtain rfl : ok = true := hanswer
  exact ⟨t, hok⟩

theorem countPresent_le (s : PagingState) (P n : ℕ) : countPresent s P n ≤ n := by
  induction n with
  | zero => exact Nat.le_refl 0
  | succ n ih =>
    rw [countPresent_succ]
    split
    · exact Nat.add_le_add_right ih 1
    · exact Nat.le_succ_of_le ih

/-- One page table and its pages. -/
theorem forkDemand_le (h : ∀ i, 0 < i → i < 768 → i ≠ p → ¬Present (s.entry d i)) : forkDemand s d ≤ 1025 := by
  have hone : ∀ i ∈ Finset.Ico 1 768, i ≠ p → tableDemand s d i = 0 := by
    intro i hi hne
    obtain ⟨hi, hi'⟩ := Finset.mem_Ico.mp hi
    exact if_neg (h i hi hi' hne)
  have htable : ∀ i, tableDemand s d i ≤ 1025 := by
    intro i
    unfold tableDemand
    split
    · have := countPresent_le s (s.entry d i / 4096) 1024
      omega
    · exact Nat.zero_le _
  unfold forkDemand
  by_cases hp : p ∈ Finset.Ico 1 768
  · rw [Finset.sum_eq_single_of_mem p hp hone]
    exact htable p
  · rw [Finset.sum_eq_zero fun i hi => hone i hi fun he => hp (he ▸ hi)]
    exact Nat.zero_le _

/-- One page table and some of its pages. -/
theorem le_forkDemand {Q : Finset ℕ} (hp : 0 < p) (hp' : p < 768) (hpresent : Present (s.entry d p))
    (hQ : ∀ q ∈ Q, q < 1024 ∧ Maps s d p q) : 1 + Q.card ≤ forkDemand s d := by
  have hcount : Q.card ≤ countPresent s (s.entry d p / 4096) 1024 := by
    unfold countPresent
    rw [← Finset.card_filter]
    exact Finset.card_le_card fun q hq => Finset.mem_filter.mpr ⟨Finset.mem_range.mpr (hQ q hq).1, (hQ q hq).2.2⟩
  have htable : 1 + Q.card ≤ tableDemand s d p := by
    rw [tableDemand, if_pos hpresent]
    omega
  refine htable.trans ?_
  unfold forkDemand
  exact Finset.single_le_sum_of_canonicallyOrdered (Finset.mem_Ico.mpr ⟨hp, hp'⟩)

theorem Spare.le_physFreeCount (h : Spare s.bitmap i) : i ≤ physFreeCount s.bitmap := by
  obtain ⟨C, hcard, hnew⟩ := h
  rw [physFreeCount_eq]
  exact hcard.trans (Finset.card_le_card fun f hf => mem_freeFrames.mpr (hnew f hf))

theorem spare_iff : Spare s.bitmap i ↔ i ≤ physFreeCount s.bitmap := by
  refine ⟨Spare.le_physFreeCount, fun h => ⟨freeFrames s, ?_, fun f hf => mem_freeFrames.mp hf⟩⟩
  rw [← physFreeCount_eq]
  exact h

/-- A kernel stack and a page of the user half are mapped, and pid 3 is forked. -/
theorem fork_copies_one_page : ∃ s t, Mapped s.mem (sampleLayout.pageDirectory 0) 0x08048000 ∧
    pagingForkCopy sampleLayout 3 (pagingProcInit sampleLayout 3 s) = .ok (true, t) ∧
    PrivateCopy sampleLayout 0 3 s t ∧ Mapped t.mem (sampleLayout.pageDirectory 3) 0x08048000 := by
  have hkva : Paged 0xEF006000 := ⟨by decide, by decide, by decide⟩
  have huva : Paged 0x08048000 := ⟨by decide, by decide, by decide⟩
  have hkpde : pdIndex 0xEF006000 = kstackPdeIndex := by decide
  have hupde : pdIndex 0x08048000 = 32 := by decide
  obtain ⟨s₁, hok₁, hallocs₁, ⟨o₁, hs₁⟩, hwindow₁⟩ :=
    bootState_sound.allocPage_succeeds bootState_window hkva (bootState_spare.mono (by decide)) 3
  have hspare₁ : Spare s₁.bitmap 15358 := hallocs₁.spare bootState_spare
  have hpdes₁ : ∀ i < 1024, i ≠ kstackPdeIndex → s₁.entry (sampleLayout.dir 0) i =
      bootState.entry (sampleLayout.dir 0) i := by
    intro i hi hne
    exact hallocs₁.pdes 0 (by decide) i hi fun he => hne (he.2.trans hkpde)
  obtain ⟨s, hok, hallocs, ⟨o, hs⟩, -⟩ :=
    hs₁.allocPage_succeeds hwindow₁ huva (hspare₁.mono (by decide)) 7
  have hspare : Spare s.bitmap 15356 := hallocs.spare hspare₁
  have hpdes : ∀ i < 1024, i ≠ 32 → s.entry (sampleLayout.dir 0) i = s₁.entry (sampleLayout.dir 0) i := by
    intro i hi hne
    exact hallocs.pdes 0 (by decide) i hi fun he => hne (he.2.trans hupde)
  have hwindow : Present (s.entry (sampleLayout.dir 0) 1023) := by
    rw [hpdes _ (by decide) (by decide), hpdes₁ _ (by decide) (by decide), bootState_entry (by decide)]
    decide
  have hunmapped₁ : ¬Mapped bootState.mem bootState.cr3 0xEF006000 := by
    rw [mapped_iff bootState_sound.cr3]
    exact fun hmaps => bootState_absent (by decide) (by decide) (by decide) hmaps.1
  have hunmapped : ¬Mapped s₁.mem s₁.cr3 0x08048000 := by
    rw [mapped_iff hs₁.cr3]
    intro hmaps
    have hpde := hmaps.1
    rw [hupde, hpdes₁ 32 (by decide) (by decide)] at hpde
    exact bootState_absent (by decide) (by decide) (by decide) hpde
  have hkstack : Present (s.entry (sampleLayout.dir 0) kstackPdeIndex) := by
    rw [hpdes _ (by decide) (by decide)]
    have hmaps := (hallocs₁.here hunmapped₁).mpr (show 0xEF006000 ≠ 0 by decide)
    rw [hkpde] at hmaps
    exact hmaps.1
  have hmaps : Maps s (sampleLayout.dir 0) (pdIndex 0x08048000) (ptIndex 0x08048000) :=
    (hallocs.here hunmapped).mpr (show 0x08048000 ≠ 0 by decide)
  have henough : forkDemand s (sampleLayout.dir 0) ≤ physFreeCount s.bitmap := by
    refine (forkDemand_le (p := 32) fun i hi hi' hne => ?_).trans ((hspare.mono (by decide)).le_physFreeCount)
    have hindex : kstackPdeIndex = 956 := by decide
    rw [hpdes i (by omega) hne, hpdes₁ i (by omega) (by omega)]
    exact bootState_absent (by omega) (by omega) (by omega)
  have hfork := fork_copies_privately sampleLayout s 0 3 (hs.exclusive hwindow) hkstack (by decide) (by decide)
  obtain ⟨t, ht⟩ := hfork.1 henough
  have hcopy := hfork.2 t ht
  have hmapped : Mapped s.mem (sampleLayout.pageDirectory 0) 0x08048000 := mapped_dir.mpr hmaps
  have huser : UserVa 0x08048000 := ⟨by decide, by decide⟩
  exact ⟨s, t, hmapped, ht, hcopy, (hcopy.same.mapped _ huser).mpr hmapped⟩

end HekaOS.Paging
