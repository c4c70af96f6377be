import HekaOS.SystemRuns
import HekaOS.PageMapping

/-!
# What a creator leaves that was refused

The page of the chunk pool, the kernel stack and the user half go back. What does not are the frames `T` that the
copy of a user half has taken, and the entries `E` of the scratch pages.
-/

namespace HekaOS.Paging
open MachineWord KernelMemory PageWalk WordBitmap PhysPageFrame AddressMap
open Tasks (maxProc)

variable {L : Layout} {s t u v : PagingState} {owner : ℕ → Owner} {E : Set ℕ} {T : Finset ℕ} {K cur d g p pid q va : ℕ}

/-! ### One page more or less -/

/-- Outside its page, an entry of a page table changes no translation. -/
theorem walk_page (h : WellFormed d s) (hp : p < 1023) (hpresent : Present (s.entry d p)) (hK : s.entry d p / 4096 = K)
    (hcr3 : t.cr3 = s.cr3) (hmem : ∀ a, a / 4096 ≠ K → t.mem a = s.mem a)
    (hothers : ∀ j < 1024, j ≠ q → t.entry K j = s.entry K j) (hva : va < wordSize)
    (hne : ¬(pdIndex va = p ∧ ptIndex va = q)) : walk t.mem t.cr3 va = walk s.mem s.cr3 va := by
  subst hK
  have hpde : t.entry d (pdIndex va) = s.entry d (pdIndex va) :=
    entry_congr hmem (h.table_ne_dir hp hpresent).symm (pdIndex_lt hva)
  rw [hcr3, h.window.cr3]
  refine walk_congr_entries hpde fun hpresent' => .inl ?_
  unfold pteOf
  rw [hpde]
  by_cases hip : pdIndex va = p
  · rw [hip]
    exact hothers _ (ptIndex_lt va) fun he => hne ⟨hip, he⟩
  · exact entry_congr hmem (h.distinct _ (pdIndex_lt hva) p (by omega) hip hpresent' hpresent) (ptIndex_lt va)

theorem PageIn.freeCount (h : PageIn K q g s t) : physFreeCount t.bitmap + 1 = physFreeCount s.bitmap := by
  have htouched := (Touched.refl {K} s).pageIn h rfl
  have hcount := htouched.freeCount
  rw [Finset.card_insert_of_notMem (Finset.notMem_empty g), Finset.card_empty] at hcount
  omega

/-- The frames `T` are taken, and the current directory translates as before but for the entries `E` of the page table
of the kernel stacks. -/
structure Leaves (E : Set ℕ) (T : Finset ℕ) (s t : PagingState) : Prop where
  cr3 : t.cr3 = s.cr3
  bitmap : ∀ x, bitmapTest t.bitmap x = (bitmapTest s.bitmap x || decide (x ∈ T))
  fresh : ∀ f ∈ T, NewFrame s.bitmap f
  walk : ∀ va < wordSize, ¬(pdIndex va = kstackPdeIndex ∧ ptIndex va ∈ E) → walk t.mem t.cr3 va = walk s.mem s.cr3 va

theorem Leaves.refl (E : Set ℕ) (s : PagingState) : Leaves E ∅ s s := ⟨rfl, by simp, by simp, fun _ _ _ => rfl⟩

namespace Restored

theorem leaves (h : Restored L pid K E T s t) (hs : Sound L cur s owner) (hK : owner K = tableOf cur kstackPdeIndex)
    (hpid : pid < maxProc) (hother : cur ≠ pid) : Leaves E T s t := by
  refine ⟨h.touched.cr3, h.touched.bitmap, h.touched.fresh, fun va hva hout => ?_⟩
  rw [h.touched.cr3, hs.cr3]
  exact hs.walk_restored hK hpid h hs.cur_lt hother hva fun hindex hin => hout ⟨hindex, hin⟩

/-- The directory and the other page tables of it have not changed. -/
theorem page (h : Restored L pid K E T s t) (hs : Sound L cur s owner) (hK : owner K = tableOf cur kstackPdeIndex)
    (hpid : pid < maxProc) (hother : cur ≠ pid) (hp : p < 1024) (hne : p ≠ kstackPdeIndex)
    (hpresent : Present (s.entry (L.dir cur) p)) : (∀ i < 1024, t.entry (L.dir cur) i = s.entry (L.dir cur) i) ∧
      ∀ j < 1024, t.entry (s.entry (L.dir cur) p / 4096) j = s.entry (s.entry (L.dir cur) p / 4096) j := by
  obtain ⟨hused, hdir, hindex⟩ := hs.table_place hK hpid hs.cur_lt hother hp hpresent
  have hin := hs.owned.reserved _ (dir_lt (L := L) hs.cur_lt)
  have hKdir := hs.owned.ne_dir (Owned.owner_ne_free hK) hs.cur_lt
  refine ⟨fun i hi => h.touched.entry hin (Aside.out ⟨hin, fun he => hother (dir_inj he), hKdir.symm⟩) hi,
    fun j hj => h.touched.entry hused (Aside.out ⟨hused, hdir, fun he => hne (hindex he)⟩) hj⟩

end Restored

/-- A page that is mapped before and unmapped behind leaves nothing. -/
theorem Leaves.between (h : Leaves E T t u) (hs : WellFormed d s) (hu : WellFormed d u) (hp : p < 1023)
    (hpresent : Present (s.entry d p)) (hK : s.entry d p / 4096 = K) (hdir : u.entry d p = s.entry d p)
    (habsent : ¬Maps s d p q) (hin : PageIn K q g s t) (hout : PageOut K q g u v) : Leaves E T s v := by
  have hKd : K ≠ d := hK ▸ hs.table_ne_dir hp hpresent
  have hg : ∀ f ∈ T, f ≠ g ∧ NewFrame s.bitmap f := by
    intro f hf
    have hclear := (h.fresh f hf).clear
    rw [hin.bitmap, Bool.or_eq_false_iff, decide_eq_false_iff_not] at hclear
    exact ⟨hclear.2, (h.fresh f hf).lt, hclear.1⟩
  refine ⟨hout.cr3.trans (h.cr3.trans hin.cr3), fun x => ?_, fun f hf => (hg f hf).2, fun va hva hne => ?_⟩
  · rw [hout.bitmap, h.bitmap, hin.bitmap]
    by_cases hx : x = g
    · subst hx
      have hnot : x ∉ T := fun hT => (hg x hT).1 rfl
      rw [hin.new.clear, decide_eq_false hnot]
      simp
    · simp [hx]
  by_cases hpage : pdIndex va = p ∧ ptIndex va = q
  · have hgone : ¬Maps v d p q := by
      rintro ⟨-, hq⟩
      rw [entry_congr hout.mem hKd.symm (by omega), hdir, hK, hout.entry] at hq
      exact absurd hq (by decide)
    have hcr3 : v.cr3 = d * 4096 := hout.cr3.trans hu.window.cr3
    rw [walk_cr3 hcr3, walk_cr3 hs.window.cr3, hpage.1, hpage.2, if_neg hgone, if_neg habsent]
  · rw [walk_page hu hp (by rw [hdir]; exact hpresent) (by rw [hdir]; exact hK) hout.cr3 hout.mem hout.others hva hpage,
      h.walk va hva hne, walk_page hs hp hpresent hK hin.cr3 hin.mem hin.others hva hpage]

end HekaOS.Paging

namespace HekaOS.TaskMemory
open MachineWord KernelMemory KernelTriples PageWalk WordBitmap PhysPageFrame AddressMap Vmalloc Paging Tasks
open Kmalloc (pageOf)

variable {L : Layout} {m n w : MemState} {s t : PagingState} {dirs unused : Set ℕ} {kind : SpawnKind} {E : Set ℕ} {T : Finset ℕ}
  {a b cur fuel g i pid size : ℕ}

/-! ### The struct and its page -/

theorem Pooled.busy (h : Pooled m) (hb : b ∈ m.pool.mapped) : ∃ d ∈ m.objects, pageOf d = b := by
  obtain ⟨_, h⟩ := h
  exact h.busy b hb

/-- The frames that `kmalloc` takes. -/
def poolDemand (size : ℕ) (p : Kmalloc.Pool) : ℕ := if Drained size p then 1 else 0

namespace InOrder

/-- Where the page table is there, the page of the new object is all that `kmalloc` takes. -/
theorem handed_page (h : InOrder L cur dirs unused m) (hn : Handed size a m n) (hdrained : Drained size m.pool)
    (hpool : Present (m.paging.entry (L.dir cur) (pdIndex m.pool.vptr))) :
    ∃ g, PageIn (m.paging.entry (L.dir cur) (pdIndex m.pool.vptr) / 4096) (ptIndex m.pool.vptr) g m.paging n.paging := by
  obtain ⟨owner, hs⟩ := h.sound
  have hva := h.pooled.vptr_page.paged
  have hpage := hn.page
  rw [if_pos hdrained] at hpage
  obtain ⟨⟨r, hok, hpos, hr⟩, -⟩ := hpage
  have htabled := hs.tabled (hs.homed.window (h.window cur h.current)) hva.pdIndex_pos hva.pdIndex_lt hpool
  rcases htabled.allocPage hva rfl hs.owned.reserved (pagePresent ||| pageRw) with ⟨-, hnull⟩ | ⟨g, t, hgot, hin⟩
  · rw [hnull] at hok
    obtain rfl := Except.ok.inj hok
    exact absurd rfl hpos
  · rw [hgot] at hok
    obtain rfl := Except.ok.inj hok
    rw [hr]
    exact ⟨g, hin⟩

theorem handed_count (h : InOrder L cur dirs unused m) (hn : Handed size a m n)
    (hpool : Present (m.paging.entry (L.dir cur) (pdIndex m.pool.vptr))) :
    physFreeCount n.paging.bitmap + poolDemand size m.pool = physFreeCount m.paging.bitmap := by
  unfold poolDemand
  split
  · rename_i hdrained
    obtain ⟨g, hin⟩ := h.handed_page hn hdrained hpool
    exact hin.freeCount
  · rename_i hstocked
    have hpage := hn.page
    rw [if_neg hstocked] at hpage
    rw [hpage.1, Nat.add_zero]

/-- The directory behind `kmalloc` is that from before. -/
theorem handed_dir (h : InOrder L cur dirs unused m) (hn : Handed size a m n)
    (hpool : Present (m.paging.entry (L.dir cur) (pdIndex m.pool.vptr))) (hi : i < 1024) :
    n.paging.entry (L.dir cur) i = m.paging.entry (L.dir cur) i := by
  obtain ⟨owner, hs⟩ := h.sound
  by_cases hdrained : Drained size m.pool
  · obtain ⟨g, hin⟩ := h.handed_page hn hdrained hpool
    have hwell := hs.wellFormed (h.window cur h.current)
    exact entry_congr hin.mem (hwell.table_ne_dir h.pooled.vptr_page.paged.pdIndex_lt hpool).symm hi
  · have hpage := hn.page
    rw [if_neg hdrained] at hpage
    rw [hpage.1]

/-- The object goes back, and its page with it if there was none before. -/
theorem returned_page (h : InOrder L cur dirs unused m) (hn : Handed size a m n) (hw : Returned a (n.withPaging t) w) :
    if Drained size m.pool then Paging.freePage m.pool.vptr t = .ok w.paging else w.paging = t := by
  have hothers : (n.withPaging t).objects.erase a = m.objects := by
    change n.objects.erase a = _
    rw [hn.objects, Finset.erase_insert hn.fresh]
  have hgiven := hw.page
  rw [hothers] at hgiven
  have hpage := hn.page
  split
  · rename_i hdrained
    rw [if_pos hdrained] at hpage
    obtain ⟨-, -, hvptr, -⟩ := hpage
    have hlast : ¬∃ d ∈ m.objects, pageOf d = pageOf a := by
      rintro ⟨d, hd, he⟩
      have hlt := (h.pooled.mapped_page (h.pooled.object_page hd).1).2
      rw [he, hvptr] at hlt
      exact lt_irrefl _ hlt
    rw [if_neg hlast, hvptr] at hgiven
    exact hgiven.1
  · rename_i hstocked
    rw [if_neg hstocked] at hpage
    obtain ⟨-, -, hmapped⟩ := hpage
    have ha : a ∈ n.objects := hn.objects ▸ Finset.mem_insert_self a _
    have hin := (hn.pooled.object_page ha).1
    rw [hmapped] at hin
    rw [if_pos (h.pooled.busy hin)] at hgiven
    exact hgiven.1

end InOrder

/-! ### A creator that is refused -/

/-- The frames `T` and the entries `E` that a creator of this kind does not restore, where `free` frames were free:
`task_fork` keeps all that it found behind the kernel stack, the others keep none. -/
structure SpawnKind.Keeps (kind : SpawnKind) (free : ℕ) (E : Set ℕ) (T : Finset ℕ) : Prop where
  scratch : E ⊆ scratchEntries
  none : kind ≠ .fork → T = ∅
  all : kind = .fork → T.card = free - kstackPages ∧ (T = ∅ → E = ∅)

/-- Where the page table of the kernel stacks is there, a creator that fails restores the rest. -/
theorem Spawnable.furnish_restores (h : Spawnable L cur pid s) (hsized : kind.Sized)
    (hkstack : Present (s.entry (L.dir cur) kstackPdeIndex)) : Ensures (TaskMemory.furnish L pid kind s) fun r =>
      r.1.2 = false → ∃ E T, kind.Keeps (physFreeCount s.bitmap) E T ∧
        Restored L pid (s.entry (L.dir cur) kstackPdeIndex / 4096) E T s r.2 := by
  refine (h.furnish_fails hsized).mono fun r hr hfail => ?_
  rcases hr hfail with ⟨hsame, hfull⟩ | ⟨b, K, E, T, hundone⟩
  · refine ⟨∅, ∅, ⟨Set.empty_subset _, fun _ => rfl, fun _ => ⟨?_, fun _ => rfl⟩⟩, ⟨hsame.cr3, fun x => ?_, by simp,
      fun a _ _ => by rw [hsame.mem]⟩, fun j _ _ => .inl (hsame.entry _ j), .of_same fun _ _ i _ => hsame.entry _ i⟩
    · rw [full_iff.mp (hfull hkstack), Finset.card_empty, Nat.zero_sub]
    · rw [hsame.bitmap, decide_eq_false (Finset.notMem_empty x), Bool.or_false]
  · obtain rfl : b = s := hundone.made.old hkstack
    rw [hundone.tabled.table]
    exact ⟨E, T, ⟨hundone.scratch, hundone.all, hundone.taken⟩, hundone.restored⟩

namespace InOrder

/-- Behind a creator that failed, the object goes back, and what that one has restored is as before `kmalloc`. -/
theorem leaves (h : InOrder L cur dirs unused m) (hn : Handed size a m n) (hpid : pid < maxProc) (hother : cur ≠ pid)
    (hkstack : Present (m.paging.entry (L.dir cur) kstackPdeIndex))
    (hpool : Present (m.paging.entry (L.dir cur) (pdIndex m.pool.vptr)))
    (hback : InOrder L cur dirs unused (n.withPaging t))
    (hrestored : Restored L pid (n.paging.entry (L.dir cur) kstackPdeIndex / 4096) E T n.paging t)
    (hw : Returned a (n.withPaging t) w) : Leaves E T m.paging w.paging := by
  have hinorder : InOrder L cur dirs unused n := h.kmalloc hn
  obtain ⟨owner, hs⟩ := hinorder.sound
  have hkstack' : Present (n.paging.entry (L.dir cur) kstackPdeIndex) := by
    rw [h.handed_dir hn hpool (by decide)]
    exact hkstack
  have hK := hs.owned.owner_table hs.cur_lt (by decide) (by decide) hkstack'
  have hmiddle : Leaves E T n.paging t := hrestored.leaves hs hK hpid hother
  have hgiven := h.returned_page hn hw
  by_cases hdrained : Drained size m.pool
  · rw [if_pos hdrained] at hgiven
    have hva := h.pooled.vptr_page.paged
    have hp : pdIndex m.pool.vptr < 1024 := hva.pdIndex_lt.trans (by decide)
    obtain ⟨g, hin⟩ := h.handed_page hn hdrained hpool
    have hpde := h.handed_dir hn hpool hp
    obtain ⟨hdir, htable⟩ := hrestored.page hs hK hpid hother hp (poolPage_index h.pooled.vptr_page).2 (by rw [hpde]; exact hpool)
    have hpde' := (hdir _ hp).trans hpde
    rw [hpde] at htable
    -- the page is still there to be unmapped
    obtain ⟨ownerm, hsm⟩ := h.sound
    obtain ⟨ownert, hst⟩ := hback.sound
    have hwell := hsm.wellFormed (h.window cur h.current)
    have hwell' : WellFormed (L.dir cur) t := hst.wellFormed (hback.window cur hback.current)
    have htabled : Tabled (L.dir cur) _ (pdIndex m.pool.vptr) t :=
      hst.tabled hwell'.window hva.pdIndex_pos hva.pdIndex_lt (by
        change Present (t.entry _ _)
        rw [hpde']
        exact hpool)
    have hpoints := hin.entry
    rw [← htable _ (ptIndex_lt _), ← hpde'] at hpoints
    obtain ⟨v, hv, hout⟩ := htabled.freePage hva rfl hpoints hin.low hin.new.lt
    obtain rfl := Except.ok.inj (hgiven.symm.trans hv)
    have hK' : (n.withPaging t).paging.entry (L.dir cur) (pdIndex m.pool.vptr) / 4096 =
        m.paging.entry (L.dir cur) (pdIndex m.pool.vptr) / 4096 := congrArg (· / 4096) hpde'
    rw [hK'] at hout
    exact hmiddle.between hwell hwell' hva.pdIndex_lt hpool rfl hpde'
      (fun hmaps => h.zone _ h.pooled.vptr_page le_rfl ⟨cur, h.cur_lt, hmaps⟩) hin hout
  · have hpage := hn.page
    rw [if_neg hdrained] at hpage hgiven
    rw [hgiven, ← hpage.1]
    exact hmiddle

/-- What a creator that is refused leaves, where the page tables are there. -/
theorem refused (h : InOrder L cur dirs unused m) (hpid : pid ∈ unused) (hnew : pid ∉ dirs) (hsized : kind.Sized)
    (hkstack : Present (m.paging.entry (L.dir cur) kstackPdeIndex))
    (hpool : Present (m.paging.entry (L.dir cur) (pdIndex m.pool.vptr))) :
    Ensures (TaskMemory.spawn L fuel pid kind m) fun r => r.1.userImage = false →
      ∃ E T, kind.Keeps (physFreeCount m.paging.bitmap - poolDemand taskSize m.pool) E T ∧
        Leaves E T m.paging r.2.paging := by
  unfold TaskMemory.spawn
  refine Ensures.bind (Q := fun t => t.1 ≠ 0 ∧ Handed taskSize t.1 m t.2)
    (fun t ht => kmalloc_handed h.pooled taskSize_served.1 taskSize_served.2 ht) fun t ht => ?_
  obtain ⟨a, n⟩ := t
  obtain ⟨hpos, hhanded⟩ := ht
  rw [if_neg hpos]
  have hn : InOrder L cur dirs unused n := h.kmalloc hhanded
  have ha : a ∈ n.objects := hhanded.objects ▸ Finset.mem_insert_self a _
  have hcount : physFreeCount m.paging.bitmap - poolDemand taskSize m.pool = physFreeCount n.paging.bitmap := by
    have hsum : physFreeCount n.paging.bitmap + poolDemand taskSize m.pool = physFreeCount m.paging.bitmap :=
      h.handed_count hhanded hpool
    omega
  have hkstack' : Present (n.paging.entry (L.dir cur) kstackPdeIndex) := by
    rw [h.handed_dir hhanded hpool (by decide)]
    exact hkstack
  rw [hcount]
  have hfails : Ensures (TaskMemory.furnish L pid kind n.paging) fun r => r.1.2 = false →
      InOrder L cur dirs unused (n.withPaging r.2) ∧ ∃ E T, kind.Keeps (physFreeCount n.paging.bitmap) E T ∧
        Restored L pid (n.paging.entry (L.dir cur) kstackPdeIndex / 4096) E T n.paging r.2 := by
    intro r hr hfail
    have hfurnished := hn.furnish hpid hnew hsized r hr
    dsimp only at hfurnished
    rw [hfail, if_neg Bool.false_ne_true] at hfurnished
    exact ⟨hfurnished.1, (hn.spawnable hpid hnew).furnish_restores hsized hkstack' r hr hfail⟩
  refine hfails.bind fun r hr => ?_
  obtain ⟨⟨pages, ok⟩, t⟩ := r
  cases ok with
  | true => exact ensures_ok nofun
  | false =>
    obtain ⟨hback, E, T, hkeeps, hrestored⟩ := hr rfl
    have ha' : a ∈ (n.withPaging t).objects := ha
    obtain ⟨w', hreturned, hunique, -⟩ := kfree_returned hback.pooled ha' (hback.freePage_object ha')
    refine Ensures.bind (Q := fun w => w = w') (fun w hok => hunique fuel w hok) fun w hw => ensures_ok fun _ => ?_
    rw [hw]
    have hother : cur ≠ pid := fun he => hnew (he ▸ h.current)
    exact ⟨E, T, hkeeps, h.leaves hhanded (h.unusedLt pid hpid).1 hother hkstack hpool hback hrestored hreturned⟩

end InOrder

end HekaOS.TaskMemory
