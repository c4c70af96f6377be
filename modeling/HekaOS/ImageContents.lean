import HekaOS.ForkPrivacy
import HekaOS.UserImage

/-!
# What a loaded image holds

The two user pages of a new directory, byte for byte. The loader reads the image through the current
directory, which it changes in the entries of the scratch pages alone; every byte of the two frames
is stored before their page tables lead to them for good.
-/

namespace HekaOS.Paging
open MachineWord KernelMemory KernelTriples ByteMemory PageWalk WordBitmap PhysPageFrame AddressMap
open Tasks (maxProc pageSize userCodeBase userStackTop)

variable {L : Layout} {s t u : PagingState} {T : Finset ℕ} {owner : ℕ → Owner}
  {a b cur d dc f g f' g' i j K n p P pid q src va x : ℕ}

/-! ### The current directory -/

/-- `page_directories[cur]` is current and leads to itself and to the first 4 MiB; its other page tables
come from the allocator, the one with the scratch pages at one index alone; and what is mapped is marked. -/
structure Marked (L : Layout) (cur : ℕ) (s : PagingState) : Prop where
  cur_lt : cur < maxProc
  cr3 : s.cr3 = L.pageDirectory cur
  window : Present (s.entry (L.dir cur) 1023)
  self : s.entry (L.dir cur) 1023 / 4096 = L.dir cur
  first : Present (s.entry (L.dir cur) 0) → s.entry (L.dir cur) 0 / 4096 = L.fptFrame
  kstack : Present (s.entry (L.dir cur) kstackPdeIndex)
  reserved : ∀ x < reservedFrames, InUse s x
  tables : ∀ i, 0 < i → i < 1023 → Present (s.entry (L.dir cur) i) →
    reservedFrames ≤ s.entry (L.dir cur) i / 4096 ∧ InUse s (s.entry (L.dir cur) i / 4096)
  once : ∀ i, 0 < i → i < 1023 → Present (s.entry (L.dir cur) i) →
    s.entry (L.dir cur) i / 4096 = s.entry (L.dir cur) kstackPdeIndex / 4096 → i = kstackPdeIndex
  pages : ∀ va < wordSize, ¬Scratch (pdIndex va) (ptIndex va) → ∀ a, walk s.mem s.cr3 va = some a → InUse s (a / 4096)

/-- The frame of the page table with the scratch pages. -/
def kstackTable (L : Layout) (cur : ℕ) (s : PagingState) : ℕ := s.entry (L.dir cur) kstackPdeIndex / 4096

namespace Marked

theorem kstackTable (h : Marked L cur s) :
    reservedFrames ≤ Paging.kstackTable L cur s ∧ InUse s (Paging.kstackTable L cur s) :=
  h.tables kstackPdeIndex (by decide) (by decide) h.kstack

theorem dir_ne_kstackTable (h : Marked L cur s) (hpid : pid < maxProc) : L.dir pid ≠ Paging.kstackTable L cur s :=
  fun he => absurd (he ▸ dir_lt (L := L) hpid) (Nat.not_lt.mpr h.kstackTable.1)

theorem callSite (h : Marked L cur s) (hpid : pid < maxProc) (hother : pid ≠ cur) :
    CallSite (L.dir cur) (L.dir pid) (Paging.kstackTable L cur s) s := by
  have hdir : L.dir cur ≠ L.dir pid := fun he => hother (dir_inj he).symm
  exact ⟨⟨⟨h.cr3, h.window, h.self⟩, h.kstack, rfl, (h.dir_ne_kstackTable h.cur_lt).symm⟩, h.reserved,
    ⟨h.reserved _ (dir_lt h.cur_lt), hdir, h.dir_ne_kstackTable h.cur_lt⟩,
    ⟨h.reserved _ (dir_lt hpid), h.dir_ne_kstackTable hpid⟩, h.kstackTable.2⟩

/-- A page table of the current directory is in use and no other directory. -/
theorem table_place (h : Marked L cur s) (hpid : pid < maxProc) (hother : pid ≠ cur) (hi : i < 1024)
    (hpresent : Present (s.entry (L.dir cur) i)) : InUse s (s.entry (L.dir cur) i / 4096) ∧
      s.entry (L.dir cur) i / 4096 ≠ L.dir pid ∧
      (s.entry (L.dir cur) i / 4096 = Paging.kstackTable L cur s → i = kstackPdeIndex) := by
  have hlow := h.kstackTable.1
  rcases Nat.eq_zero_or_pos i with h0 | hpos
  · subst h0
    have hfpt := L.fpt_low
    rw [h.first hpresent]
    exact ⟨h.reserved _ hfpt, (dir_ne_fpt hpid).symm, fun he => by omega⟩
  by_cases hlast : i = 1023
  · subst hlast
    rw [h.self]
    exact ⟨h.reserved _ (dir_lt h.cur_lt), fun he => hother (dir_inj he).symm,
      fun he => absurd he (h.dir_ne_kstackTable h.cur_lt)⟩
  · obtain ⟨htable, hused⟩ := h.tables i hpos (by omega) hpresent
    refine ⟨hused, fun he => ?_, h.once i hpos (by omega) hpresent⟩
    have hdir := dir_lt (L := L) hpid
    omega

/-- Addresses off the scratch pages lead where they did. -/
theorem walk_kept (h : Marked L cur s) (hpid : pid < maxProc) (hother : pid ≠ cur)
    (ht : Touched {Paging.kstackTable L cur s, L.dir pid} T s t) (hscratch : ScratchOnly (Paging.kstackTable L cur s) s t)
    (hva : va < wordSize) (hns : ¬Scratch (pdIndex va) (ptIndex va)) : walk t.mem t.cr3 va = walk s.mem s.cr3 va := by
  have hindex := pdIndex_lt hva
  have hpde : t.entry (L.dir cur) (pdIndex va) = s.entry (L.dir cur) (pdIndex va) := by
    have hdir := (h.callSite hpid hother).dir
    exact ht.entry hdir.inUse hdir.out hindex
  rw [ht.cr3, h.cr3]
  refine walk_congr_entries hpde fun hpresent => .inl ?_
  obtain ⟨hused, hne, honce⟩ := h.table_place hpid hother hindex hpresent
  unfold pteOf
  rw [hpde]
  by_cases hK : s.entry (L.dir cur) (pdIndex va) / 4096 = Paging.kstackTable L cur s
  · have hscratchVa : ∀ va', ScratchVa va' → ptIndex va ≠ ptIndex va' := fun va' hva' he =>
      hns ⟨va', hva', (Working.scratch_pdIndex hva').trans (honce hK).symm, he.symm⟩
    rw [hK]
    exact hscratch _ (ptIndex_lt va) (hscratchVa _ (.inl rfl)) (hscratchVa _ (.inr rfl))
  · exact ht.entry hused (Aside.out ⟨hused, hne, hK⟩) (ptIndex_lt va)

/-- What is found off the scratch pages does not change with a frame that was free. -/
theorem steady (h : Marked L cur s) (hpid : pid < maxProc) (hother : pid ≠ cur)
    (ht : Touched {Paging.kstackTable L cur s, L.dir pid} T s t) (hscratch : ScratchOnly (Paging.kstackTable L cur s) s t)
    (hf : f ∈ T) (hva : va < wordSize) (hns : ¬Scratch (pdIndex va) (ptIndex va)) : Steady f t va := by
  intro u hu
  have hfree : ∀ x, InUse s x → x ≠ f := fun x hx he => ht.not_mem hx (he ▸ hf)
  have htouched := ht.and_then (Touched.of_within hu) (by simp [hf])
  have hscratch' := hscratch.trans (.of_within hu (hfree _ h.kstackTable.2))
  have hwalk := h.walk_kept hpid hother ht hscratch hva hns
  refine ⟨(h.walk_kept hpid hother htouched hscratch' hva hns).trans hwalk.symm, fun a ha => ?_⟩
  rw [hwalk] at ha
  exact hu.mem a (hfree _ (h.pages va hva hns a ha))

end Marked

/-! ### Bytes of entries -/

theorem load32_byte (m : Memory) (hi : i < 4) : load32 m a / 256 ^ i % 256 = m (a + i) % 256 := by
  unfold load32
  have hcases : i = 0 ∨ i = 1 ∨ i = 2 ∨ i = 3 := by omega
  rcases hcases with rfl | rfl | rfl | rfl
  · simp only [Nat.pow_zero, Nat.div_one, Nat.add_zero]
    omega
  · omega
  · omega
  · omega

/-- Equal entries have equal bytes. -/
theorem entry_byte (h : t.entry f j = s.entry f j) (ha : a / 4 = f * 1024 + j) : t.mem a % 256 = s.mem a % 256 := by
  obtain ⟨i, hi, rfl⟩ : ∃ i < 4, a = f * 4096 + 4 * j + i := ⟨a % 4, Nat.mod_lt _ (by decide), by omega⟩
  unfold PagingState.entry at h
  rw [← load32_byte t.mem hi, ← load32_byte s.mem hi, h]

/-- The words that the loader has changed when it copies: the directory entry of the code, and the entries
of the scratch pages. -/
def Disturbed (dc K a : ℕ) : Prop :=
  a / 4 = dc * 1024 + pdIndex userCodeBase ∨ ∃ va, ScratchVa va ∧ a / 4 = K * 1024 + ptIndex va

theorem byte_kept (ht : Touched {K, dc} T s t) (hscratch : ScratchOnly K s t)
    (hdir : ∀ i < 1024, i ≠ pdIndex userCodeBase → t.entry dc i = s.entry dc i) (ha : InUse s (a / 4096))
    (hns : ¬Disturbed dc K a) : t.mem a % 256 = s.mem a % 256 := by
  obtain ⟨hcode, hpages⟩ := not_or.mp hns
  have hentry : a / 4 = a / 4096 * 1024 + a / 4 % 1024 := by omega
  have hlt : a / 4 % 1024 < 1024 := Nat.mod_lt _ (by decide)
  by_cases hdc : a / 4096 = dc
  · rw [hdc] at hentry
    refine entry_byte (hdir _ hlt fun he => hcode ?_) hentry
    rw [hentry, he]
  by_cases hK : a / 4096 = K
  · rw [hK] at hentry
    refine entry_byte (hscratch _ hlt (fun he => hpages ⟨_, .inl rfl, ?_⟩) fun he => hpages ⟨_, .inr rfl, ?_⟩) hentry
    · rw [hentry, he]
    · rw [hentry, he]
  · rw [ht.kept a ha]
    rintro (he | he)
    · exact hK he
    · exact hdc he

/-! ### One page -/

/-- The flags of a user page and of its page table. -/
def userFlags : ℕ := pagePresent ||| pageRw ||| pageUser

/-- A page that was mounted, filled and entered into a new page table, with frames `g` and `f` for them. -/
structure PageAdded (L : Layout) (dc K p q src n g f : ℕ) (s t : PagingState) : Prop where
  newTable : NewFrame s.bitmap g
  newPage : NewFrame s.bitmap f
  apart : g ≠ f
  touched : Touched {K, dc} {g, f} s t
  scratch : ScratchOnly K s t
  pde : t.entry dc p = g * 4096 ||| userFlags
  pte : t.entry g q = f * 4096 ||| userFlags
  dir : ∀ i < 1024, i ≠ p → t.entry dc i = s.entry dc i
  ptes : ∀ j < 1024, j ≠ q → t.entry g j = 0
  unmounted : ∀ va, ScratchVa va → ¬Present (t.entry K (ptIndex va))
  filled : ∃ u, Touched {K, dc} {g, f} s u ∧ ScratchOnly K s u ∧ (∀ i < 1024, i ≠ p → u.entry dc i = s.entry dc i) ∧
    u.entry dc p = g * 4096 ||| userFlags ∧ Filled L src n f u t

theorem CallSite.loadUserPage_added (h : CallSite d (L.dir pid) K s) (hfpt : L.fptFrame ≠ K) (hpid : pid < maxProc)
    (hp : pdIndex va < 768) (habsent : ¬Present (s.entry (L.dir pid) (pdIndex va))) (hn : n ≤ 4096) :
    Ensures (loadUserPage L pid va src n s) fun r => r.1 = true →
      ∃ g f, PageAdded L (L.dir pid) K (pdIndex va) (ptIndex va) src n g f s r.2 := by
  rw [loadUserPage_eq]
  refine (h.userPt_returns hp habsent).ensures.bind fun r hr => ?_
  obtain ⟨a, t₁⟩ := r
  rcases hr with ⟨rfl, rfl, -⟩ | ⟨g, rfl, htable, hpde⟩
  · exact ensures_ok fun hfalse => Bool.noConfusion hfalse
  obtain ⟨hdg, hcg, hKg⟩ := h.ne_new htable.new
  have hglow : reservedFrames ≤ g := by
    by_contra hlt
    exact Bool.false_ne_true (htable.new.clear.symm.trans (h.reserved g (Nat.not_le.mp hlt)))
  have hout : L.fptFrame ∉ ({K, L.dir pid, g} : Set ℕ) := by
    have := L.fpt_low
    rintro (he | he | he)
    · exact hfpt he
    · exact (dir_ne_fpt hpid).symm he
    · have he : L.fptFrame = g := he
      omega
  have hg : InUse t₁ g := htable.touched.inUse_of_mem (Finset.mem_singleton_self g)
  have hload : Meets _ (loadInto L (g * 4096) va src n t₁) _ :=
    (h.touched htable.touched).loadInto_meets hg hdg hcg hKg (htable.new.lt.trans (by decide)) hout hn
  refine hload.1.mono fun r hr htrue => ?_
  rcases hr with ⟨hfalse, -⟩ | ⟨-, f, hpage, hbytes⟩
  · rw [hfalse] at htrue
    cases htrue
  obtain ⟨v, htouched, hscratch, hdir, hfilled⟩ := hbytes.filled
  obtain ⟨hf, hfg⟩ := htable.touched.newFrame hpage.new
  have hgf : g ≠ f := fun he => hfg (he ▸ Finset.mem_singleton_self g)
  have hboth : ∀ {w : PagingState}, Touched {K, L.dir pid, g} {f} t₁ w → Touched {K, L.dir pid} {g, f} s w := by
    intro w hw
    refine htable.touched.trans hw fun x hx => ?_
    rcases hx with hx | hx | hx
    · exact .inl (.inl hx)
    · exact .inl (.inr hx)
    · exact .inr (Finset.mem_singleton.mpr hx)
  refine ⟨g, f, htable.new, hf, hgf, hboth hpage.touched, htable.scratch.trans hpage.scratch, ?_, hbytes.entry,
    fun i hi hne => ?_, fun j hj hne => ?_, hbytes.unmounted, v, hboth htouched, htable.scratch.trans hscratch,
    fun i hi hne => ?_, ?_, hfilled⟩
  · rw [hpage.dir _ (by omega)]
    exact hpde
  · rw [hpage.dir i hi, htable.others i hi hne]
  · rw [hpage.others j hj hne, htable.empty j hj]
  · rw [hdir i hi, htable.others i hi hne]
  · rw [hdir _ (by omega)]
    exact hpde

/-- A page and its table outlast a later call on the same directory. -/
theorem PageAdded.outlast (h : PageAdded L dc K p q src n g f s t) (hK : InUse s K) (hdc : InUse s dc)
    (hu : Touched {K, dc} T t u) : (∀ b < 4096, u.mem (f * 4096 + b) = t.mem (f * 4096 + b)) ∧
      ∀ j < 1024, u.entry g j = t.entry g j := by
  have hused : ∀ x ∈ ({g, f} : Finset ℕ), InUse t x := fun x hx => h.touched.inUse_of_mem hx
  have hout : ∀ x ∈ ({g, f} : Finset ℕ), x ∉ ({K, dc} : Set ℕ) := by
    rintro x hx (he | he)
    · exact h.touched.not_mem hK (he ▸ hx)
    · exact h.touched.not_mem hdc (he ▸ hx)
  constructor
  · intro b hb
    have hdiv : (f * 4096 + b) / 4096 = f := by omega
    refine hu.kept _ ?_ ?_
    · rw [hdiv]
      exact hused f (by simp)
    · rw [hdiv]
      exact hout f (by simp)
  · intro j hj
    exact hu.entry (hused g (by simp)) (hout g (by simp)) hj

/-! ### The two pages -/

/-- An address is translated by two entries that leave it to the user, and its page is in frame `f`. -/
structure UserPage (s : PagingState) (d va g f : ℕ) : Prop where
  pde : s.entry d (pdIndex va) = g * 4096 ||| userFlags
  pte : s.entry g (ptIndex va) = f * 4096 ||| userFlags
  walk : ∀ b < pageSize, walk s.mem (d * 4096) (va + b) = some (f * 4096 + b)

theorem userPage_of_entries (hpde : s.entry d (pdIndex va) = g * 4096 ||| userFlags)
    (hpte : s.entry g (ptIndex va) = f * 4096 ||| userFlags) (hg : g < 2 ^ 20) (hf : f < 2 ^ 20)
    (haligned : va % 4096 = 0) : UserPage s d va g f := by
  have htable : Points (s.entry d (pdIndex va)) g := hpde ▸ points_or hg (by decide) (by decide)
  have hpage : Points (s.entry g (ptIndex va)) f := hpte ▸ points_or hf (by decide) (by decide)
  refine ⟨hpde, hpte, fun b hb => ?_⟩
  simp only [pageSize] at hb
  have hpd : pdIndex (va + b) = pdIndex va := by
    unfold pdIndex
    omega
  have hpt : ptIndex (va + b) = ptIndex va := by
    unfold ptIndex
    omega
  have hoff : (va + b) % 4096 = b := by omega
  have hpte' : pteOf s d (va + b) = s.entry g (ptIndex va) := by
    unfold pteOf
    rw [hpd, hpt, htable.frame]
  have hmaps : Maps s d (pdIndex (va + b)) (ptIndex (va + b)) := by
    rw [hpd, hpt]
    refine ⟨htable.present, ?_⟩
    rw [htable.frame]
    exact hpage.present
  rw [walk_dir, if_pos hmaps, hpte', hpage.frame, hoff]

/-- The page of the code outlasts that of the stack. -/
theorem PageAdded.codePage (h : PageAdded L dc K 32 72 src n g f s t) (h' : PageAdded L dc K 767 1023 0 0 g' f' t u)
    (hptes : ∀ j < 1024, u.entry g j = t.entry g j) : UserPage u dc userCodeBase g f := by
  refine userPage_of_entries ?_ ?_ (h.newTable.lt.trans (by decide)) (h.newPage.lt.trans (by decide)) (by decide)
  · exact (h'.dir 32 (by decide) (by decide)).trans h.pde
  · exact (hptes 72 (by decide)).trans h.pte

/-- What the page of the code holds: the bytes at `src`, but for those in `frame_bitmap` and on the kernel's own stack
and those that the loader has changed itself, and zeros behind them; or zeros only, if there is no source. -/
structure ImageBytes (L : Layout) (cur pid src n : ℕ) (s t : PagingState) (f : ℕ) : Prop where
  copied : src ≠ 0 → ∀ b < n, ¬Scratch (pdIndex (add32 src b)) (ptIndex (add32 src b)) →
    ∃ a, walk s.mem s.cr3 (add32 src b) = some a ∧
      (L.own a = false → ¬Disturbed (L.dir pid) (kstackTable L cur s) a → t.mem (f * 4096 + b) = s.mem a % 256)
  null : src = 0 → ∀ b < n, t.mem (f * 4096 + b) = 0
  rest : ∀ b, n ≤ b → b < pageSize → t.mem (f * 4096 + b) = 0

/-- A loaded image: page tables in frames `g` and `g'`, the code in frame `f` and the stack in frame `f'`. -/
structure ImageLoaded (L : Layout) (cur pid src n : ℕ) (s t : PagingState) (g f g' f' : ℕ) : Prop where
  distinct : [g, f, g', f'].Nodup
  fresh : ∀ x ∈ [g, f, g', f'], NewFrame s.bitmap x
  taken : ∀ x, InUse t x ↔ InUse s x ∨ x ∈ [g, f, g', f']
  code : UserPage t (L.dir pid) userCodeBase g f
  stack : UserPage t (L.dir pid) (userStackTop - pageSize) g' f'
  bytes : ImageBytes L cur pid src n s t f
  blank : ∀ b < pageSize, t.mem (f' * 4096 + b) = 0
  alone : ∀ va, UserVa va → Mapped t.mem (L.pageDirectory pid) va →
    userCodeBase ≤ va ∧ va < userCodeBase + pageSize ∨ userStackTop - pageSize ≤ va ∧ va < userStackTop
  kept : ∀ va < wordSize, ¬Scratch (pdIndex va) (ptIndex va) → walk t.mem t.cr3 va = walk s.mem s.cr3 va
  unmounted : ∀ va, ScratchVa va → ¬Mapped t.mem t.cr3 va

/-- The loader adds the page of the code and then that of the stack. -/
theorem Marked.twoPages (h : Marked L cur s) (hpid : pid < maxProc) (hother : pid ≠ cur)
    (hempty : ∀ p, 0 < p → p < 768 → ¬Present (s.entry (L.dir pid) p)) (hn : n ≤ 4096)
    (hok : pagingLoadUserImage L pid src n s = .ok (true, t)) : ∃ t₁ g f g' f',
      PageAdded L (L.dir pid) (Paging.kstackTable L cur s) 32 72 src n g f s t₁ ∧
      PageAdded L (L.dir pid) (Paging.kstackTable L cur s) 767 1023 0 0 g' f' t₁ t := by
  have hsite := h.callSite hpid hother
  have hfpt : L.fptFrame ≠ Paging.kstackTable L cur s := by
    have hlow := L.fpt_low
    have htable := h.kstackTable.1
    omega
  unfold pagingLoadUserImage at hok
  split at hok
  · cases hok
  obtain ⟨⟨ok₁, t₁⟩, hok₁, hok⟩ := bind_eq_ok.mp hok
  have hfirst := hsite.loadUserPage_added hfpt hpid (by decide) (hempty _ (by decide) (by decide)) hn _ hok₁
  cases ok₁ with
  | false => cases hok
  | true =>
    obtain ⟨⟨ok₂, t₂⟩, hok₂, hok⟩ := bind_eq_ok.mp hok
    cases ok₂ with
    | false => cases hok
    | true =>
      obtain rfl : t₂ = t := (Prod.mk.inj (Except.ok.inj hok)).2
      obtain ⟨g, f, hcode⟩ := hfirst rfl
      have habsent : ¬Present (t₁.entry (L.dir pid) (pdIndex (userStackTop - pageSize))) := by
        rw [hcode.dir _ (by decide) (by decide)]
        exact hempty _ (by decide) (by decide)
      have hsecond := (hsite.touched hcode.touched).loadUserPage_added hfpt hpid (by decide) habsent (Nat.zero_le _) _ hok₂
      obtain ⟨g', f', hstack⟩ := hsecond rfl
      exact ⟨t₁, g, f, g', f', hcode, hstack⟩

/-- The bytes of the code page, read off how it was filled. -/
theorem Marked.imageBytes (h : Marked L cur s) (hpid : pid < maxProc) (hother : pid ≠ cur)
    (hadded : PageAdded L (L.dir pid) (Paging.kstackTable L cur s) 32 72 src n g f s t) :
    ImageBytes L cur pid src n s t f := by
  obtain ⟨u, ht, hscratch, hdir, -, hfilled⟩ := hadded.filled
  refine ⟨fun hsrc b hb hns => ?_, hfilled.null, hfilled.rest⟩
  have hva : add32 src b < wordSize := add32_lt _ _
  have hsteady := h.steady hpid hother ht hscratch (by simp : f ∈ ({g, f} : Finset ℕ)) hva hns
  obtain ⟨a, ha, hbyte⟩ := hfilled.copied hsrc b hb hsteady
  rw [h.walk_kept hpid hother ht hscratch hva hns] at ha
  refine ⟨a, ha, fun hown hkept => ?_⟩
  rw [hbyte hown]
  exact byte_kept ht hscratch hdir (h.pages _ hva hns a ha) hkept

theorem Marked.imageLoaded (h : Marked L cur s) (hpid : pid < maxProc) (hother : pid ≠ cur)
    (hempty : ∀ p, 0 < p → p < 768 → ¬Present (s.entry (L.dir pid) p)) (hn : n ≤ 4096)
    (hok : pagingLoadUserImage L pid src n s = .ok (true, t)) :
    ∃ g f g' f', ImageLoaded L cur pid src n s t g f g' f' := by
  obtain ⟨t₁, g, f, g', f', hcode, hstack⟩ := h.twoPages hpid hother hempty hn hok
  have hsite := h.callSite hpid hother
  obtain ⟨hbytes, hptes⟩ := hcode.outlast hsite.kstack hsite.other.1 hstack.touched
  have hfresh : ∀ x ∈ ({g', f'} : Finset ℕ), NewFrame s.bitmap x ∧ x ∉ ({g, f} : Finset ℕ) := fun x hx =>
    hcode.touched.newFrame (hstack.touched.fresh x hx)
  have htouched := hcode.touched.trans hstack.touched fun _ hx => .inl hx
  have hscratch := hcode.scratch.trans hstack.scratch
  have hlt : ∀ {x}, NewFrame s.bitmap x → x < 2 ^ 20 := fun hx => hx.lt.trans (by decide)
  obtain ⟨hg', hgne⟩ := hfresh g' (by simp)
  obtain ⟨hf', hfne⟩ := hfresh f' (by simp)
  simp only [Finset.mem_insert, Finset.mem_singleton, not_or] at hgne hfne
  refine ⟨g, f, g', f', ?_, ?_, fun x => ?_, hcode.codePage hstack hptes, ?_, ?_, fun b hb => ?_, fun va hva hmapped => ?_, fun va hva hns => ?_,
    fun va hva => ?_⟩
  · simp [hcode.apart, hstack.apart, Ne.symm hgne.1, Ne.symm hgne.2, Ne.symm hfne.1, Ne.symm hfne.2]
  · intro x hx
    simp only [List.mem_cons, List.not_mem_nil, or_false] at hx
    rcases hx with rfl | rfl | rfl | rfl
    · exact hcode.newTable
    · exact hcode.newPage
    · exact hg'
    · exact hf'
  · have hmem : x ∈ ({g, f} ∪ {g', f'} : Finset ℕ) ↔ x ∈ [g, f, g', f'] := by
      simp only [Finset.mem_union, Finset.mem_insert, Finset.mem_singleton, List.mem_cons, List.not_mem_nil, or_false,
        or_assoc]
    unfold InUse
    rw [htouched.bitmap, Bool.or_eq_true, decide_eq_true_iff, hmem]
  · exact userPage_of_entries hstack.pde hstack.pte (hlt hg') (hlt hf') (by decide)
  · have himage := h.imageBytes hpid hother hcode
    refine ⟨fun hsrc b hb hns => ?_, fun hsrc b hb => ?_, fun b hb hb' => ?_⟩
    · obtain ⟨a, ha, hbyte⟩ := himage.copied hsrc b hb hns
      exact ⟨a, ha, fun hown hkept => (hbytes b (by omega)).trans (hbyte hown hkept)⟩
    · exact (hbytes b (by omega)).trans (himage.null hsrc b hb)
    · exact (hbytes b hb').trans (himage.rest b hb hb')
  · obtain ⟨u, -, -, -, -, hfilled⟩ := hstack.filled
    exact hfilled.rest b (Nat.zero_le b) hb
  · obtain ⟨hpde, hpte⟩ := mapped_dir.mp hmapped
    obtain ⟨hindex, hindex'⟩ := hva.index
    have hoffset := ptIndex_lt va
    by_cases hlast : pdIndex va = 767
    · right
      have htable : Points (t.entry (L.dir pid) 767) g' := hstack.pde ▸ points_or (hlt hg') (by decide) (by decide)
      rw [hlast, htable.frame] at hpte
      have hq : ptIndex va = 1023 := by
        by_contra hne
        rw [hstack.ptes _ hoffset hne] at hpte
        exact absurd hpte (by decide)
      unfold pdIndex at hlast
      unfold ptIndex at hq
      simp only [userStackTop, Tasks.kernelVirtBase, pageSize]
      omega
    rw [hstack.dir _ (by omega) hlast] at hpde hpte
    by_cases hthis : pdIndex va = 32
    · left
      have htable : Points (t₁.entry (L.dir pid) 32) g := hcode.pde ▸ points_or (hlt hcode.newTable) (by decide) (by decide)
      rw [hthis, htable.frame, hptes _ hoffset] at hpte
      have hq : ptIndex va = 72 := by
        by_contra hne
        rw [hcode.ptes _ hoffset hne] at hpte
        exact absurd hpte (by decide)
      unfold pdIndex at hthis
      unfold ptIndex at hq
      simp only [userCodeBase, pageSize]
      omega
    · rw [hcode.dir _ (by omega) hthis] at hpde
      exact absurd hpde (hempty _ hindex hindex')
  · exact h.walk_kept hpid hother htouched hscratch hva hns
  · have hcr3 : t.cr3 = L.dir cur * 4096 := htouched.cr3.trans h.cr3
    have hpde : t.entry (L.dir cur) kstackPdeIndex = s.entry (L.dir cur) kstackPdeIndex :=
      htouched.entry hsite.dir.inUse hsite.dir.out (by decide)
    rw [mapped_iff hcr3]
    rintro ⟨-, hpte⟩
    rw [Working.scratch_pdIndex hva, hpde] at hpte
    exact hstack.unmounted va hva hpte

/-- Where the ledger covers the tables, the hypotheses on the current directory hold. -/
theorem Sound.marked (h : Sound L cur s owner) (hwindow : Present (s.entry (L.dir cur) 1023))
    (hkstack : Present (s.entry (L.dir cur) kstackPdeIndex)) : Marked L cur s := by
  have htable : ∀ i, 0 < i → i < 1023 → Present (s.entry (L.dir cur) i) →
      owner (s.entry (L.dir cur) i / 4096) = tableOf cur i := fun i hi hi' hpresent =>
    h.owned.owner_table h.cur_lt hi hi' hpresent
  have hused : ∀ x, owner x ≠ .free → InUse s x := fun x hx => (h.owned.used x hx).2.2
  have hplace : ∀ i < 1024, Present (s.entry (L.dir cur) i) → InUse s (s.entry (L.dir cur) i / 4096) := by
    intro i hi hpresent
    have hleads := h.owned.pde cur h.cur_lt i hi hpresent
    rcases Nat.eq_zero_or_pos i with h0 | hpos
    · rw [hleads.first h0]
      exact h.owned.reserved _ L.fpt_low
    by_cases hlast : i = 1023
    · rw [hleads.self hlast]
      exact h.owned.reserved _ (dir_lt h.cur_lt)
    · exact hused _ (Owned.owner_ne_free (hleads.table hpos (by omega)))
  refine ⟨h.cur_lt, h.cr3, hwindow, h.homed.self hwindow, fun hpresent => ?_, hkstack, h.owned.reserved,
    fun i hi hi' hpresent => ?_, fun i hi hi' hpresent he => ?_, fun va hva hns a ha => ?_⟩
  · exact (h.owned.pde cur h.cur_lt 0 (by decide) hpresent).first rfl
  · have hne := Owned.owner_ne_free (htable i hi hi' hpresent)
    exact ⟨(h.owned.used _ hne).1, hused _ hne⟩
  · have hown := htable i hi hi' hpresent
    rw [he, htable kstackPdeIndex (by decide) (by decide) hkstack] at hown
    exact (Owner.table.inj hown).1.symm
  · rw [h.cr3] at ha
    obtain ⟨⟨hpde, hpte⟩, rfl⟩ := walk_eq_some.mp ha
    have hdiv : (pteOf s (L.dir cur) va / 4096 * 4096 + va % 4096) / 4096 = pteOf s (L.dir cur) va / 4096 := by omega
    have hoffset := ptIndex_lt va
    have hleads := h.owned.pde cur h.cur_lt _ (pdIndex_lt hva) hpde
    rw [hdiv]
    unfold pteOf
    rcases Nat.eq_zero_or_pos (pdIndex va) with h0 | hpos
    · rw [hleads.first h0]
      exact h.owned.reserved _ (h.owned.fpt _ hoffset)
    by_cases hlast : pdIndex va = 1023
    · rw [hleads.self hlast] at hpte ⊢
      exact hplace _ hoffset hpte
    · have hindex := pdIndex_lt hva
      have hown := hleads.table hpos (by omega)
      have hpage := h.owned.pte _ _ _ hown _ hoffset hns hpte
      refine hused _ ?_
      rw [hpage]
      exact nofun

/-- An image of one to 4096 bytes is loaded page by page into the empty directory; any other size is
refused with nothing changed. -/
theorem user_image_loaded (L : Layout) (base s : PagingState) (cur pid src n : ℕ) (hinit : s = pagingProcInit L pid base)
    (h : Marked L cur s) (hpid : pid < maxProc) (hother : pid ≠ cur) :
    (n = 0 ∨ pageSize < n → pagingLoadUserImage L pid src n s = .ok (false, s)) ∧
      ∀ t, pagingLoadUserImage L pid src n s = .ok (true, t) → ∃ g f g' f', ImageLoaded L cur pid src n s t g f g' f' := by
  constructor
  · intro hsize
    unfold pagingLoadUserImage
    exact if_pos hsize
  · intro t hok
    have hn : n ≤ 4096 := by
      by_contra hgt
      unfold pagingLoadUserImage at hok
      rw [if_pos (.inr (Nat.not_le.mp hgt))] at hok
      cases hok
    refine h.imageLoaded hpid hother (fun p hp hp' => ?_) hn hok
    rw [hinit]
    exact pagingProcInit_absent L pid base p hp hp'

/-! ### A state to load into -/

/-- Physical memory with a byte at address 0. -/
def sampleMem : Memory := fun a => if a = 0 then 1 else 0

/-- The boot state with an empty page table for the kernel stacks. -/
def stacksState : PagingState :=
  ({ pagingInit sampleLayout sampleMem (physMemInit fun _ => 0) with
    bitmap := bitmapSet (physMemInit fun _ => 0) 1024 } : PagingState).setEntry (sampleLayout.dir 0) kstackPdeIndex
      (1024 * 4096 ||| (pagePresent ||| pageRw))

/-- The directory of pid 3 has just been set. -/
def childState : PagingState := pagingProcInit sampleLayout 3 stacksState

theorem childState_entry (hf : f ≠ sampleLayout.dir 3) (hj : j < 1024) : childState.entry f j =
    if f = sampleLayout.dir 0 ∧ j = kstackPdeIndex then 1024 * 4096 ||| (pagePresent ||| pageRw)
    else bootEntry sampleLayout sampleMem f j := by
  have hw := pagingProcInit_within sampleLayout 3 stacksState
  have hmark : ∀ (s : PagingState) (bm : Bitmap), ({ s with bitmap := bm } : PagingState).entry f j = s.entry f j :=
    fun _ _ => rfl
  rw [childState, hw.entry hf hj, stacksState, PagingState.entry_setEntry (by decide) hj (by decide), hmark,
    pagingInit_entry hj]

theorem childState_bitmap : childState.bitmap = bitmapSet (physMemInit fun _ => 0) 1024 :=
  (pagingProcInit_within sampleLayout 3 stacksState).bitmap

theorem childState_reserved (hx : x < reservedFrames) : InUse childState x := by
  have hinit := represents_init fun _ => 0
  have hbit := (hinit.bit x (hx.trans (by decide))).mpr (.inl hx)
  unfold InUse
  rw [childState_bitmap, bitmapTest_set, hbit]
  rfl

/-- The entries of the current directory that are present. -/
theorem childState_present (hi : i < 1024) (hpresent : Present (childState.entry (sampleLayout.dir 0) i)) :
    i = 0 ∧ childState.entry (sampleLayout.dir 0) i / 4096 = sampleLayout.fptFrame ∨
      i = 1023 ∧ childState.entry (sampleLayout.dir 0) i / 4096 = sampleLayout.dir 0 ∨
      i = kstackPdeIndex ∧ childState.entry (sampleLayout.dir 0) i / 4096 = 1024 := by
  rw [childState_entry (by decide) hi] at hpresent ⊢
  by_cases hk : i = kstackPdeIndex
  · right
    right
    rw [if_pos ⟨rfl, hk⟩]
    exact ⟨hk, by decide⟩
  rw [if_neg fun hc => hk hc.2, bootEntry, if_pos rfl] at hpresent ⊢
  by_cases hlast : i = 1023
  · right
    left
    rw [if_pos hlast]
    exact ⟨hlast, by decide⟩
  rw [if_neg hlast] at hpresent ⊢
  by_cases h0 : i = 0
  · left
    rw [if_pos h0]
    exact ⟨h0, by decide⟩
  · rw [if_neg h0] at hpresent
    exact absurd hpresent (by decide)

theorem childState_identity (hj : j < 1024) :
    childState.entry sampleLayout.fptFrame j = j * 4096 ||| (pagePresent ||| pageRw) := by
  have hne : sampleLayout.fptFrame ≠ sampleLayout.dir 0 := by decide
  rw [childState_entry (by decide) hj, if_neg fun hc => hne hc.1, bootEntry, if_neg hne, if_pos rfl]

theorem childState_empty (hj : j < 1024) : childState.entry 1024 j = 0 := by
  have hne : 1024 ≠ sampleLayout.dir 0 := by decide
  have hzero : ∀ a, a ≠ 0 → sampleMem a = 0 := fun a ha => if_neg ha
  rw [childState_entry (by decide) hj, if_neg fun hc => hne hc.1, bootEntry, if_neg hne, if_neg (by decide), load32,
    hzero _ (by omega), hzero _ (by omega), hzero _ (by omega), hzero _ (by omega)]
  rfl

theorem childState_marked : Marked sampleLayout 0 childState := by
  have hw := pagingProcInit_within sampleLayout 3 stacksState
  have hcr3 : childState.cr3 = sampleLayout.pageDirectory 0 := by
    rw [childState, hw.cr3, stacksState, PagingState.setEntry_cr3]
    dsimp only
    rw [pagingInit_cr3]
  have hused : InUse childState 1024 := by
    unfold InUse
    rw [childState_bitmap]
    exact bitmapTest_set_self _ _
  have hindex : kstackPdeIndex = 956 := by decide
  have hwindow : Points (childState.entry (sampleLayout.dir 0) 1023) (sampleLayout.dir 0) := by
    rw [childState_entry (by decide) (by decide)]
    exact points_dir (by decide)
  have hkstack : Points (childState.entry (sampleLayout.dir 0) kstackPdeIndex) 1024 := by
    rw [childState_entry (by decide) (by decide), if_pos ⟨rfl, rfl⟩]
    exact points_or (by decide) (by decide) (by decide)
  have hplace : ∀ i < 1024, Present (childState.entry (sampleLayout.dir 0) i) →
      InUse childState (childState.entry (sampleLayout.dir 0) i / 4096) := by
    intro i hi hpresent
    rcases childState_present hi hpresent with ⟨-, hf⟩ | ⟨-, hf⟩ | ⟨-, hf⟩
    · rw [hf]
      exact childState_reserved (by decide)
    · rw [hf]
      exact childState_reserved (by decide)
    · rw [hf]
      exact hused
  refine ⟨by decide, hcr3, hwindow.present, hwindow.frame, fun hpresent => ?_, hkstack.present,
    fun x hx => childState_reserved hx, fun i hi hi' hpresent => ?_, fun i hi hi' hpresent _ => ?_,
    fun va hva hns a ha => ?_⟩
  · rcases childState_present (by decide) hpresent with ⟨-, hf⟩ | ⟨hi, -⟩ | ⟨hi, -⟩
    · exact hf
    · cases hi
    · rw [hindex] at hi
      cases hi
  · refine ⟨?_, hplace i (by omega) hpresent⟩
    rcases childState_present (by omega) hpresent with ⟨h0, -⟩ | ⟨hlast, -⟩ | ⟨-, hf⟩
    · omega
    · omega
    · rw [hf]
      decide
  · rcases childState_present (by omega) hpresent with ⟨h0, -⟩ | ⟨hlast, -⟩ | ⟨hk, -⟩
    · omega
    · omega
    · exact hk
  · rw [hcr3] at ha
    obtain ⟨⟨hpde, hpte⟩, rfl⟩ := walk_eq_some.mp ha
    have hdiv : (pteOf childState (sampleLayout.dir 0) va / 4096 * 4096 + va % 4096) / 4096 =
        pteOf childState (sampleLayout.dir 0) va / 4096 := by omega
    have hoffset := ptIndex_lt va
    rw [hdiv]
    unfold pteOf
    rcases childState_present (pdIndex_lt hva) hpde with ⟨-, hf⟩ | ⟨-, hf⟩ | ⟨-, hf⟩
    · rw [hf, childState_identity hoffset, (points_frame hoffset).frame]
      exact childState_reserved hoffset
    · rw [hf] at hpte ⊢
      exact hplace _ hoffset hpte
    · rw [hf, childState_empty hoffset] at hpte
      exact absurd hpte (by decide)

/-- When all frames are in use, the spare ones have been taken. -/
theorem Touched.card_of_full {W : Set ℕ} (ht : Touched W T s t) (hspare : Spare s.bitmap i) (hfull : Full t) : i ≤ T.card := by
  obtain ⟨C, hcard, hnew⟩ := hspare
  refine hcard.trans (Finset.card_le_card fun x hx => ?_)
  have hx' := hfull x (hnew x hx).lt
  unfold InUse at hx'
  rw [ht.bitmap, (hnew x hx).clear, Bool.false_or] at hx'
  exact of_decide_eq_true hx'

/-- The loader succeeds where the bytes can be read and four frames are left. -/
theorem Marked.load_returns (h : Marked L cur s) (hpid : pid < maxProc) (hother : pid ≠ cur)
    (hempty : ∀ p, 0 < p → p < 768 → ¬Present (s.entry (L.dir pid) p)) (hn : 0 < n) (hn' : n ≤ 4096)
    (hlegible : Legible L (L.dir cur) src n s) (hspare : Spare s.bitmap 4) :
    ∃ t, pagingLoadUserImage L pid src n s = .ok (true, t) := by
  have hfpt : L.fptFrame ≠ Paging.kstackTable L cur s := by
    have hlow := L.fpt_low
    have htable := h.kstackTable.1
    omega
  have hnone : Legible L (L.dir cur) 0 0 s := ⟨hlegible.cr3, .inl rfl, hlegible.pde, hlegible.leads, hlegible.ptes⟩
  have hmeets : Meets _ (pagingLoadUserImage L pid src n s) _ :=
    (h.callSite hpid hother).pagingLoadUserImage_meets hfpt hpid hempty hn hn'
  obtain ⟨⟨ok, t⟩, hok, T, hloaded, hfull, -⟩ := hmeets.returns ⟨hlegible, hnone⟩
  cases ok with
  | true => exact ⟨t, hok⟩
  | false =>
    obtain ⟨hfull, hcard⟩ := hfull rfl
    have hle := hloaded.touched.card_of_full hspare hfull
    omega

theorem childState_spare : Spare childState.bitmap 4 := by
  refine ⟨{1025, 1026, 1027, 1028}, le_refl 4, fun x hx => ?_⟩
  have hrange : 1025 ≤ x ∧ x ≤ 1028 := by
    simp only [Finset.mem_insert, Finset.mem_singleton] at hx
    omega
  have htotal : x < physTotalFrames := by
    have : physTotalFrames = 16384 := by decide
    omega
  have hreserved : ¬x < reservedFrames := by
    have : reservedFrames = 1024 := by decide
    omega
  have hbit := mt ((represents_init fun _ => 0).bit x htotal).mp (not_or.mpr ⟨hreserved, Finset.notMem_empty x⟩)
  refine ⟨htotal, ?_⟩
  rw [childState_bitmap, bitmapTest_set_of_ne _ (by omega)]
  exact eq_false_of_ne_true hbit

theorem childState_loads (hsrc : src = 0 ∨ src + 1 ≤ 0x00400000) :
    ∃ t, pagingLoadUserImage sampleLayout 3 src 1 childState = .ok (true, t) := by
  have hfirst : Points (childState.entry (sampleLayout.dir 0) 0) sampleLayout.fptFrame := by
    rw [childState_entry (by decide) (by decide)]
    exact points_fpt sampleLayout
  have hempty := pagingProcInit_absent sampleLayout 3 stacksState
  refine childState_marked.load_returns (by decide) (by decide) hempty (by decide) (by decide)
    ⟨childState_marked.cr3, hsrc, hfirst.present, hfirst.frame, fun j hj => ?_⟩ childState_spare
  rw [childState_identity hj]
  exact (points_frame hj).present

/-- An address of the first 4 MiB leads to itself. -/
theorem childState_walk (hva : va < 0x00400000) : walk childState.mem childState.cr3 va = some va := by
  have hpd : pdIndex va = 0 := by
    unfold pdIndex
    omega
  have hfirst : Points (childState.entry (sampleLayout.dir 0) 0) sampleLayout.fptFrame := by
    rw [childState_entry (by decide) (by decide)]
    exact points_fpt sampleLayout
  have hoffset := ptIndex_lt va
  have hpte : pteOf childState (sampleLayout.dir 0) va = ptIndex va * 4096 ||| (pagePresent ||| pageRw) := by
    unfold pteOf
    rw [hpd, hfirst.frame, childState_identity hoffset]
  have hpage : Points (pteOf childState (sampleLayout.dir 0) va) (ptIndex va) := hpte ▸ points_frame hoffset
  have hmaps : Maps childState (sampleLayout.dir 0) (pdIndex va) (ptIndex va) := by
    refine ⟨?_, hpage.present⟩
    rw [hpd]
    exact hfirst.present
  have hself : ptIndex va * 4096 + va % 4096 = va := by
    unfold ptIndex
    omega
  rw [childState_marked.cr3]
  refine (walk_dir childState (sampleLayout.dir 0) va).trans ?_
  rw [if_pos hmaps, hpage.frame, hself]

/-- One byte is loaded for pid 3. -/
theorem user_image_loaded_byte : ∃ t, pagingLoadUserImage sampleLayout 3 0x1000 1 childState = .ok (true, t) ∧
    ∃ g f g' f', ImageLoaded sampleLayout 0 3 0x1000 1 childState t g f g' f' := by
  obtain ⟨t, ht⟩ := childState_loads (.inr (by decide : 0x1000 + 1 ≤ 0x00400000))
  exact ⟨t, ht, (user_image_loaded sampleLayout stacksState childState 0 3 0x1000 1 rfl childState_marked (by decide)
    (by decide)).2 t ht⟩

theorem entry_low (s : PagingState) (f j : ℕ) : s.entry f j % 256 = s.mem (f * 4096 + 4 * j) % 256 := by
  unfold PagingState.entry load32
  omega

/-- The directory entry of the code is copied as the loader has set it. -/
theorem Marked.copies_own_entry (h : Marked L cur s) (hpid : pid < maxProc) (hother : pid ≠ cur)
    (hempty : ∀ p, 0 < p → p < 768 → ¬Present (s.entry (L.dir pid) p)) (hsrc : src ≠ 0) (hword : src < wordSize)
    (hns : ¬Scratch (pdIndex src) (ptIndex src)) (hwalk : walk s.mem s.cr3 src = some (L.dir pid * 4096 + 4 * 32))
    (hown : L.own (L.dir pid * 4096 + 4 * 32) = false)
    (hok : pagingLoadUserImage L pid src 1 s = .ok (true, t)) :
    ∃ a, walk t.mem (L.pageDirectory pid) userCodeBase = some a ∧ t.mem a % 256 = 7 := by
  obtain ⟨t₁, g, f, g', f', hcode, hstack⟩ := h.twoPages hpid hother hempty (by decide) hok
  have hsite := h.callSite hpid hother
  obtain ⟨hbytes, hptes⟩ := hcode.outlast hsite.kstack hsite.other.1 hstack.touched
  obtain ⟨u, ht, hscratch, -, hpde, hfilled⟩ := hcode.filled
  have hadd : add32 src 0 = src := add32_of_lt hword
  have hsteady := h.steady hpid hother ht hscratch (by simp : f ∈ ({g, f} : Finset ℕ)) hword hns
  obtain ⟨a, ha, hbyte⟩ := hfilled.copied hsrc 0 (by decide) (by rwa [hadd])
  rw [hadd, h.walk_kept hpid hother ht hscratch hword hns, hwalk] at ha
  obtain rfl := Option.some.inj ha
  -- the entry is a frame address and the flags of a user page
  have hflags : g * 4096 ||| userFlags = g * 4096 + 7 := or_low (k := 12) (by decide : 7 < 2 ^ 12)
  have hlow := entry_low u (L.dir pid) 32
  rw [hpde, hflags] at hlow
  refine ⟨_, (hcode.codePage hstack hptes).walk 0 (by decide), ?_⟩
  rw [hbytes 0 (by decide), hbyte hown, ← hlow]
  omega

/-- Without a source, the page is zero where a byte could have been read at address 0; and of its own directory
the loader reads the entry that it has just set, not the one that was there before the call. -/
theorem user_image_not_source : Marked sampleLayout 0 childState ∧
    (∃ t a, pagingLoadUserImage sampleLayout 3 0 1 childState = .ok (true, t) ∧
      walk childState.mem childState.cr3 0 = some 0 ∧ childState.mem 0 % 256 = 1 ∧
      walk t.mem (sampleLayout.pageDirectory 3) userCodeBase = some a ∧ t.mem a % 256 = 0) ∧
    ∃ t a, pagingLoadUserImage sampleLayout 3 0x203080 1 childState = .ok (true, t) ∧
      walk childState.mem childState.cr3 0x203080 = some 0x203080 ∧ childState.mem 0x203080 % 256 = 2 ∧
      walk t.mem (sampleLayout.pageDirectory 3) userCodeBase = some a ∧ t.mem a % 256 = 7 := by
  have hmarked := childState_marked
  have hempty := pagingProcInit_absent sampleLayout 3 stacksState
  have hwalk₀ : walk childState.mem childState.cr3 0 = some 0 := childState_walk (by decide)
  have hwalk₁ : walk childState.mem childState.cr3 0x203080 = some 0x203080 := childState_walk (by decide)
  have hzero : childState.entry 0 0 = 1 := by
    rw [childState_entry (by decide) (by decide)]
    decide
  have hrw : childState.entry (sampleLayout.dir 3) 32 = pageRw :=
    pagingProcInit_user sampleLayout 3 stacksState (by decide) (by decide)
  obtain ⟨t, ht⟩ := childState_loads (.inl rfl)
  obtain ⟨t', ht'⟩ := childState_loads (.inr (by decide : 0x203080 + 1 ≤ 0x00400000))
  have hempty : ∀ p, 0 < p → p < 768 → ¬Present (childState.entry (sampleLayout.dir 3) p) := hempty
  generalize childState = s at *
  have hbyte := entry_low s 0 0
  have hbyte' := entry_low s (sampleLayout.dir 3) 32
  rw [hzero] at hbyte
  rw [hrw] at hbyte'
  refine ⟨hmarked, ?_, ?_⟩
  · obtain ⟨g, f, g', f', himage⟩ := hmarked.imageLoaded (by decide) (by decide) hempty (by decide) ht
    refine ⟨t, f * 4096 + 0, ht, hwalk₀, hbyte.symm, himage.code.walk 0 (by decide), ?_⟩
    rw [himage.bytes.null rfl 0 (by decide)]
  · have hns : ¬Scratch (pdIndex 0x203080) (ptIndex 0x203080) := fun hc => absurd (scratch_iff.mp hc).1 (by decide)
    obtain ⟨a, ha, hseven⟩ := hmarked.copies_own_entry (by decide) (by decide) hempty (by decide) (by decide) hns hwalk₁
      (by decide) ht'
    exact ⟨t', a, ht', hwalk₁, hbyte'.symm, ha, hseven⟩

end HekaOS.Paging
