import HekaOS.FirstTasks
import HekaOS.ForkPrivacy
import HekaOS.Refusals

/-!
# The last frames

There are more addresses than frames, so while a frame is free there is a page to map to it. From every state that
the kernel reaches it reaches others, with the same tasks, in which only a few frames are left.
-/

namespace HekaOS.Paging
open MachineWord KernelMemory KernelTriples PageWalk WordBitmap PhysPageFrame AddressMap

variable {L : Layout} {s t b : PagingState} {owner : ℕ → Owner} {cur n p va : ℕ}

theorem TableMade.freeCount_le (h : TableMade L cur p s b) : physFreeCount b.bitmap ≤ physFreeCount s.bitmap := by
  rw [physFreeCount_eq, physFreeCount_eq]
  refine Finset.card_le_card fun f hf => ?_
  have hnew := mem_freeFrames.mp hf
  refine mem_freeFrames.mpr ⟨hnew.lt, ?_⟩
  by_contra hused
  have hin : InUse b f := h.used f (eq_true_of_ne_false hused)
  exact Bool.false_ne_true (hnew.clear.symm.trans hin)

namespace Sound

/-- A page of its own is behind each entry, so that one address of many is not mapped. -/
theorem unmapped_exists (h : Sound L cur s owner) {V : Finset ℕ} (hcard : physTotalFrames < V.card)
    (hV : ∀ va ∈ V, Paged va ∧ ¬Scratch (pdIndex va) (ptIndex va)) :
    ∃ va ∈ V, ¬Maps s (L.dir cur) (pdIndex va) (ptIndex va) := by
  by_contra hall
  push Not at hall
  have hpage : ∀ va ∈ V, owner (pteOf s (L.dir cur) va / 4096) =
      .page (s.entry (L.dir cur) (pdIndex va) / 4096) (ptIndex va) := by
    intro va hva
    obtain ⟨hpaged, hscratch⟩ := hV va hva
    obtain ⟨hpde, hpte⟩ := hall va hva
    have htable := h.owned.owner_table h.cur_lt hpaged.pdIndex_pos hpaged.pdIndex_lt hpde
    exact h.owned.pte _ _ _ htable _ (ptIndex_lt va) hscratch hpte
  have hrange : ∀ va ∈ V, pteOf s (L.dir cur) va / 4096 ∈ Finset.range physTotalFrames := by
    intro va hva
    exact Finset.mem_range.mpr (h.owned.used _ (Owned.page_ne_free (hpage va hva))).2.1
  have hfew : (Finset.range physTotalFrames).card < V.card := by
    rw [Finset.card_range]
    exact hcard
  obtain ⟨va, hva, va', hva', hne, he⟩ := Finset.exists_ne_map_eq_of_card_lt_of_maps_to hfew hrange
  -- the same frame is behind the same entry of the same table
  have howner := hpage va hva
  rw [he, hpage va' hva'] at howner
  obtain ⟨htable, hpt⟩ := Owner.page.inj howner
  have hpaged := (hV va hva).1
  have hpaged' := (hV va' hva').1
  have hown := h.owned.owner_table h.cur_lt hpaged.pdIndex_pos hpaged.pdIndex_lt (hall va hva).1
  have hown' := h.owned.owner_table h.cur_lt hpaged'.pdIndex_pos hpaged'.pdIndex_lt (hall va' hva').1
  rw [← htable, hown'] at hown
  obtain ⟨hpd, -⟩ := Owner.table.inj hown
  have haligned := hpaged.aligned
  have haligned' := hpaged'.aligned
  refine hne ?_
  unfold pdIndex at hpd
  unfold ptIndex at hpt
  omega

/-- Where there are two frames, an address that is not mapped takes one of them or both. -/
theorem allocPage_takes (h : Sound L cur s owner) (hwindow : Window s (L.dir cur)) (hva : Paged va)
    (hunmapped : ¬Maps s (L.dir cur) (pdIndex va) (ptIndex va)) (hspare : n + 2 ≤ physFreeCount s.bitmap) (flags : ℕ) :
    ∃ t, Paging.allocPage va flags s = .ok (va, t) ∧ Allocs L cur va s (va, t) ∧
      Maps t (L.dir cur) (pdIndex va) (ptIndex va) ∧ n ≤ physFreeCount t.bitmap ∧
      physFreeCount t.bitmap < physFreeCount s.bitmap := by
  obtain ⟨t, hok, hallocs, -⟩ := h.allocPage_succeeds hwindow hva (spare_iff.mpr (by omega)) flags
  have hpos : va ≠ 0 := by
    have := hva.above
    omega
  refine ⟨t, hok, hallocs, ?_, spare_iff.mp (hallocs.spare (spare_iff.mpr hspare)), ?_⟩
  · have hhere := hallocs.here
    rw [mapped_iff h.cr3] at hhere
    exact (hhere hunmapped).mpr hpos
  · obtain ⟨r, hr, houtcome⟩ := h.allocPage_outcome hwindow hva flags
    obtain rfl := Except.ok.inj (hr.symm.trans hok)
    rcases houtcome with ⟨hnull, -⟩ | ⟨-, b, K, g, hmade, -, hin⟩
    · exact absurd hnull hpos
    · have hle := hmade.freeCount_le
      have hcount := hin.freeCount
      dsimp only at hcount
      omega

end Sound

theorem PageOut.freeCount {K q g : ℕ} (h : PageOut K q g s t) (hused : bitmapTest s.bitmap g = true)
    (hlt : g < physTotalFrames) : physFreeCount t.bitmap = physFreeCount s.bitmap + 1 := by
  have hfree : freeFrames t = insert g (freeFrames s) := by
    ext f
    rw [Finset.mem_insert, mem_freeFrames, mem_freeFrames]
    by_cases hf : f = g
    · subst hf
      refine iff_of_true ⟨hlt, ?_⟩ (.inl rfl)
      rw [h.bitmap, decide_eq_true rfl, Bool.not_true, Bool.and_false]
    · have hsame : bitmapTest t.bitmap f = bitmapTest s.bitmap f := by
        rw [h.bitmap, decide_eq_false hf, Bool.not_false, Bool.and_true]
      exact ⟨fun hnew => .inr ⟨hnew.lt, hsame ▸ hnew.clear⟩, fun hor => hor.elim (fun he => absurd he hf)
        fun hnew => ⟨hnew.lt, hsame.trans hnew.clear⟩⟩
  have hnotin : g ∉ freeFrames s := fun hin => Bool.false_ne_true ((mem_freeFrames.mp hin).clear.symm.trans hused)
  rw [physFreeCount_eq, physFreeCount_eq, hfree, Finset.card_insert_of_notMem hnotin]

/-- The frame of a page that is mapped goes back. -/
theorem Sound.freePage_gives (h : Sound L cur s owner) (hwindow : Window s (L.dir cur)) (hva : Paged va)
    (hscratch : ¬Scratch (pdIndex va) (ptIndex va)) (hmaps : Maps s (L.dir cur) (pdIndex va) (ptIndex va)) :
    ∃ t, Paging.freePage va s = .ok t ∧ physFreeCount t.bitmap = physFreeCount s.bitmap + 1 := by
  obtain ⟨hpde, hpte⟩ := hmaps
  have hwell := h.wellFormed hwindow.present
  have htable := h.owned.owner_table h.cur_lt hva.pdIndex_pos hva.pdIndex_lt hpde
  have hpage := h.owned.pte _ _ _ htable _ (ptIndex_lt va) hscratch hpte
  obtain ⟨hlow, hlt, hused⟩ := h.owned.used _ (Owned.page_ne_free hpage)
  have htabled : Tabled (L.dir cur) (s.entry (L.dir cur) (pdIndex va) / 4096) (pdIndex va) s :=
    ⟨hwindow, hpde, rfl, hwell.table_ne_dir hva.pdIndex_lt hpde⟩
  obtain ⟨t, ht, hout⟩ := htabled.freePage hva rfl ⟨hpte, rfl, PagingState.entry_lt⟩ hlow hlt
  exact ⟨t, ht, hout.freeCount hused hlt⟩

end HekaOS.Paging

namespace HekaOS.TaskMemory
open MachineWord KernelMemory PageWalk WordBitmap PhysPageFrame AddressMap Vmalloc Paging Tasks

variable {L : Layout} {s t u : System} {k n va : ℕ}

/-- The directory of the task on the CPU. -/
def System.dir (L : Layout) (s : System) : ℕ := L.dir s.tasks.current.mm.pgdir

theorem Backed.cr3_dir (h : Backed L s) : s.mem.paging.cr3 / 4096 = s.dir L := by
  obtain ⟨owner, hsound⟩ := h.mem.sound
  rw [hsound.cr3]
  exact Nat.mul_div_cancel _ (by decide)

/-- Pages were mapped in the current directory since, and nothing else has happened. -/
structure PagesAdded (L : Layout) (s t : System) : Prop where
  reachable : SystemReachable L t
  tasks : t.tasks = s.tasks
  pool : t.mem.pool = s.mem.pool
  tables : ∀ i < 1024, Present (s.mem.paging.entry (s.dir L) i) → Present (t.mem.paging.entry (s.dir L) i)
  maps : ∀ i j, 0 < i → i < 1023 → j < 1024 → Maps s.mem.paging (s.dir L) i j → Maps t.mem.paging (s.dir L) i j

theorem PagesAdded.dir (h : PagesAdded L s t) : t.dir L = s.dir L := by
  rw [System.dir, h.tasks]
  rfl

theorem PagesAdded.refl (hs : SystemReachable L s) : PagesAdded L s s := ⟨hs, rfl, rfl, fun _ _ h => h, fun _ _ _ _ _ h => h⟩

theorem PagesAdded.trans (h : PagesAdded L s t) (h' : PagesAdded L t u) : PagesAdded L s u := by
  have htables := h'.tables
  have hmaps := h'.maps
  rw [h.dir] at htables hmaps
  exact ⟨h'.reachable, h'.tasks.trans h.tasks, h'.pool.trans h.pool, fun i hi hp => htables i hi (h.tables i hi hp),
    fun i j hi hi' hj hm => hmaps i j hi hi' hj (h.maps i j hi hi' hj hm)⟩

namespace SystemReachable

/-- One more page, at an address that is not mapped. -/
theorem addPage (hs : SystemReachable L s) (hva : Elsewhere va)
    (hunmapped : ¬Maps s.mem.paging (s.dir L) (pdIndex va) (ptIndex va))
    (hspare : n + 2 ≤ physFreeCount s.mem.paging.bitmap) : ∃ t, PagesAdded L s t ∧
      Maps t.mem.paging (s.dir L) (pdIndex va) (ptIndex va) ∧ n ≤ physFreeCount t.mem.paging.bitmap ∧
      physFreeCount t.mem.paging.bitmap < physFreeCount s.mem.paging.bitmap := by
  have hmem := hs.backed.mem
  obtain ⟨owner, hsound⟩ := hmem.sound
  have hwindow := hsound.homed.window (hmem.window _ hmem.current)
  obtain ⟨t, hok, hallocs, hmaps, hleft, hfewer⟩ := hsound.allocPage_takes hwindow hva.paged hunmapped hspare 0
  have hstep : SystemStep L s ⟨s.tasks, s.mem.withPaging t⟩ := .allocPage hva hok
  refine ⟨_, ⟨.next hs hstep, rfl, rfl, fun i hi hpresent => ?_, fun i j hi hi' hj hm => ?_⟩, hmaps, hleft, hfewer⟩
  · have hsame : t.entry (s.dir L) i = s.mem.paging.entry (s.dir L) i := by
      by_cases hat : i = pdIndex va
      · rw [hat] at hpresent ⊢
        exact hallocs.pde (.inl hpresent)
      · exact hallocs.pdes _ hsound.cur_lt i hi fun he => hat he.2
    change Present (t.entry (s.dir L) i)
    rw [hsame]
    exact hpresent
  by_cases hat : i = pdIndex va ∧ j = ptIndex va
  · rw [hat.1, hat.2]
    exact hmaps
  · exact (hallocs.others i j hi hi' hj hat).mpr hm

/-- An address outside the zones can be mapped. -/
theorem mapsPage (hs : SystemReachable L s) (hva : Elsewhere va) (hspare : n + 2 ≤ physFreeCount s.mem.paging.bitmap) :
    ∃ t, PagesAdded L s t ∧ Maps t.mem.paging (s.dir L) (pdIndex va) (ptIndex va) ∧
      n ≤ physFreeCount t.mem.paging.bitmap := by
  by_cases hmaps : Maps s.mem.paging (s.dir L) (pdIndex va) (ptIndex va)
  · exact ⟨s, .refl hs, hmaps, by omega⟩
  · obtain ⟨t, hadded, hmaps, hleft, -⟩ := hs.addPage hva hmaps hspare
    exact ⟨t, hadded, hmaps, hleft⟩

end SystemReachable

/-- Page `i` of many in the user half. -/
def userPage (i : ℕ) : ℕ := 0x10000000 + i * 4096

theorem userPage_elsewhere (hi : n ≤ physTotalFrames) : Elsewhere (userPage n) ∧ 0 < pdIndex (userPage n) ∧ pdIndex (userPage n) < 768 := by
  have htotal : physTotalFrames = 16384 := by decide
  have hindex : kstackPdeIndex = 956 := by decide
  have hpd : 64 ≤ pdIndex (userPage n) ∧ pdIndex (userPage n) ≤ 80 := by
    unfold pdIndex userPage
    omega
  refine ⟨⟨⟨?_, ?_, ?_⟩, fun hpool => ?_, by omega⟩, by omega, by omega⟩
  · unfold userPage
    omega
  · unfold userPage
    omega
  · unfold userPage
    omega
  · have habove := hpool.above
    simp only [userPage, Kmalloc.kcpoolVirtBase] at habove
    omega

/-- From every state that the kernel reaches, it can map pages until `n` frames are left, or one more. -/
theorem SystemReachable.frames_run_out (hs : SystemReachable L s) (hn : n ≤ physFreeCount s.mem.paging.bitmap) :
    ∃ t, PagesAdded L s t ∧ n ≤ physFreeCount t.mem.paging.bitmap ∧ physFreeCount t.mem.paging.bitmap ≤ n + 1 := by
  generalize hcount : physFreeCount s.mem.paging.bitmap = k at hn
  induction k using Nat.strong_induction_on generalizing s with
  | _ k ih =>
    by_cases hfew : k ≤ n + 1
    · exact ⟨s, .refl hs, by omega, by omega⟩
    obtain ⟨owner, hsound⟩ := hs.backed.mem.sound
    have hinj : Function.Injective userPage := by
      intro i j he
      unfold userPage at he
      omega
    have hcard : physTotalFrames < ((Finset.range (physTotalFrames + 1)).image userPage).card := by
      rw [Finset.card_image_of_injective _ hinj, Finset.card_range]
      exact Nat.lt_succ_self _
    obtain ⟨va, hva, hunmapped⟩ := hsound.unmapped_exists hcard fun va hva => by
      obtain ⟨i, hi, rfl⟩ := Finset.mem_image.mp hva
      obtain ⟨helse, -⟩ := userPage_elsewhere (Nat.lt_succ_iff.mp (Finset.mem_range.mp hi))
      exact ⟨helse.paged, fun hscratch => helse.kstack (scratch_iff.mp hscratch).1⟩
    obtain ⟨i, hi, rfl⟩ := Finset.mem_image.mp hva
    obtain ⟨helse, -⟩ := userPage_elsewhere (Nat.lt_succ_iff.mp (Finset.mem_range.mp hi))
    obtain ⟨t, hadded, -, hleft, hfewer⟩ := hs.addPage (n := n) helse hunmapped (by omega)
    obtain ⟨u, hadded', hleft', hfew'⟩ := ih _ (hcount ▸ hfewer) hadded.reachable rfl hleft
    exact ⟨u, hadded.trans hadded', hleft', hfew'⟩

/-- From every state with frames to spare the kernel reaches one with the same tasks and a given number of frames. -/
theorem SystemReachable.frames_left (hs : SystemReachable L s) (hfree : n + 3 ≤ physFreeCount s.mem.paging.bitmap) :
    ∃ t, SystemReachable L t ∧ t.tasks = s.tasks ∧ t.mem.pool = s.mem.pool ∧
      (∀ i < 1024, Present (s.mem.paging.entry (s.dir L) i) → Present (t.mem.paging.entry (s.dir L) i)) ∧
      physFreeCount t.mem.paging.bitmap = n + 1 := by
  obtain ⟨helse, hpos, hhigh⟩ := userPage_elsewhere (Nat.zero_le physTotalFrames)
  obtain ⟨u, hfirst, hmaps, hleft⟩ := hs.mapsPage (n := n + 1) helse (by omega)
  obtain ⟨t, hadded, hleast, hmost⟩ := hfirst.reachable.frames_run_out (Nat.le_of_succ_le hleft)
  have hall := hfirst.trans hadded
  by_cases hcount : physFreeCount t.mem.paging.bitmap = n + 1
  · exact ⟨t, hall.reachable, hall.tasks, hall.pool, hall.tables, hcount⟩
  -- one frame is missing, and the first page gives it back
  have hmaps' : Maps t.mem.paging (t.dir L) (pdIndex (userPage 0)) (ptIndex (userPage 0)) := by
    rw [hall.dir]
    have hkept := hadded.maps _ _ hpos (hhigh.trans (by decide)) (ptIndex_lt (userPage 0))
    rw [hfirst.dir] at hkept
    exact hkept hmaps
  have hmem := hall.reachable.backed.mem
  obtain ⟨owner, hsound⟩ := hmem.sound
  have hwindow := hsound.homed.window (hmem.window _ hmem.current)
  have hscratch : ¬Scratch (pdIndex (userPage 0)) (ptIndex (userPage 0)) := fun hin => helse.kstack (scratch_iff.mp hin).1
  obtain ⟨v, hv, hgiven⟩ := hsound.freePage_gives hwindow helse.paged hscratch hmaps'
  obtain ⟨hfrees, -⟩ := hsound.freePage helse.paged (fun hin => hscratch ⟨_, hin, rfl, rfl⟩) v hv
  refine ⟨_, .next hall.reachable (.freePage helse hv), hall.tasks, hall.pool, fun i hi hpresent => ?_, ?_⟩
  · have hsame := hfrees.pdes _ hsound.cur_lt i hi
    have hdir : L.dir t.tasks.current.mm.pgdir = s.dir L := hall.dir
    rw [hdir] at hsame
    change Present (v.entry (s.dir L) i)
    rw [hsame]
    exact hall.tables i hi hpresent
  · change physFreeCount v.bitmap = n + 1
    omega

end HekaOS.TaskMemory
