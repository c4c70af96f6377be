import HekaOS.Paging

/-!
# Entries of page tables

The tables as a function from frames and indices to entries, and what the accesses of `paging.c`
do to it: a page that is mapped shows a frame (`Shows`), and the recursive window shows the current
directory and all of its page tables.
-/

namespace HekaOS.Paging
open MachineWord KernelMemory KernelTriples ByteMemory PageWalk WordBitmap PhysPageFrame AddressMap
open Tasks (maxProc pageSize)

variable {s t : PagingState} {d K f f' g i j j' p q n v va flags : ℕ}

namespace PagingState

/-- The `j`-th entry of the table in frame `f`. -/
def entry (s : PagingState) (f j : ℕ) : ℕ := load32 s.mem (f * 4096 + 4 * j)

def setEntry (s : PagingState) (f j v : ℕ) : PagingState := s.setWord (f * 4096 + 4 * j) v

theorem entry_lt : s.entry f j < wordSize := load32_lt

@[simp] theorem setEntry_cr3 : (s.setEntry f j v).cr3 = s.cr3 := rfl

@[simp] theorem setEntry_bitmap : (s.setEntry f j v).bitmap = s.bitmap := rfl

theorem entry_setEntry_self (hv : v < wordSize) : (s.setEntry f j v).entry f j = v := load32_store32 hv

theorem entry_setEntry_of_ne (hj : j < 1024) (hj' : j' < 1024) (h : ¬(f' = f ∧ j' = j)) :
    (s.setEntry f j v).entry f' j' = s.entry f' j' := by
  apply load32_store32_of_disjoint
  rcases Nat.lt_trichotomy f' f with hlt | rfl | hgt
  · omega
  · omega
  · omega

theorem entry_setEntry (hj : j < 1024) (hj' : j' < 1024) (hv : v < wordSize) :
    (s.setEntry f j v).entry f' j' = if f' = f ∧ j' = j then v else s.entry f' j' := by
  split
  · rename_i h
    obtain ⟨rfl, rfl⟩ := h
    exact entry_setEntry_self hv
  · rename_i h
    exact entry_setEntry_of_ne hj hj' h

theorem setEntry_setEntry (s : PagingState) (f j v w : ℕ) :
    (s.setEntry f j v).setEntry f j w = s.setEntry f j w := by
  have hmem : store32 (store32 s.mem (f * 4096 + 4 * j) v) (f * 4096 + 4 * j) w =
      store32 s.mem (f * 4096 + 4 * j) w := by
    funext x
    unfold store32
    split <;> rfl
  unfold setEntry setWord
  dsimp only
  rw [hmem]

theorem entry_of_mem (h : ∀ a, a / 4096 = f → t.mem a = s.mem a) (hj : j < 1024) : t.entry f j = s.entry f j := by
  unfold entry load32
  rw [h _ (by omega), h _ (by omega), h _ (by omega), h _ (by omega)]

/-- All entries of a table are cleared. -/
def clearTable (s : PagingState) (f : ℕ) : PagingState :=
  (List.range 1024).foldl (fun s i => s.setEntry f i 0) s

end PagingState

/-- Everything outside a frame is the same. -/
structure Within (g : ℕ) (s t : PagingState) : Prop where
  cr3 : t.cr3 = s.cr3
  bitmap : t.bitmap = s.bitmap
  mem : ∀ a, a / 4096 ≠ g → t.mem a = s.mem a

theorem Within.refl (g : ℕ) (s : PagingState) : Within g s s := ⟨rfl, rfl, fun _ _ => rfl⟩

theorem Within.trans {u : PagingState} (h₁ : Within g s t) (h₂ : Within g t u) : Within g s u :=
  ⟨h₂.cr3.trans h₁.cr3, h₂.bitmap.trans h₁.bitmap, fun a ha => (h₂.mem a ha).trans (h₁.mem a ha)⟩

theorem Within.entry (h : Within g s t) (hf : f ≠ g) (hj : j < 1024) : t.entry f j = s.entry f j :=
  PagingState.entry_of_mem (fun a ha => h.mem a (ha ▸ hf)) hj

theorem within_setEntry (hj : j < 1024) : Within g s (s.setEntry g j v) := by
  refine ⟨rfl, rfl, fun a ha => store32_of_ne ?_⟩
  omega

theorem within_clearTable : Within g s (s.clearTable g) := by
  unfold PagingState.clearTable
  have hloop : ∀ (l : List ℕ) (t : PagingState), (∀ i ∈ l, i < 1024) →
      Within g t (l.foldl (fun s i => s.setEntry g i 0) t) := by
    intro l
    induction l with
    | nil => exact fun t _ => .refl g t
    | cons i l ih =>
      intro t hl
      exact (within_setEntry (hl i List.mem_cons_self)).trans (ih _ fun j hj => hl j (List.mem_cons_of_mem i hj))
  exact hloop _ s fun i hi => List.mem_range.mp hi

theorem entry_clearTable (hj : j < 1024) : (s.clearTable g).entry g j = 0 := by
  unfold PagingState.clearTable
  have hloop : ∀ n ≤ 1024, j < n → ((List.range n).foldl (fun s i => s.setEntry g i 0) s).entry g j = 0 := by
    intro n
    induction n with
    | zero => exact fun _ hj => absurd hj (Nat.not_lt_zero j)
    | succ n ih =>
      intro hn hjn
      rw [List.range_succ, List.foldl_append, List.foldl_cons, List.foldl_nil]
      by_cases hlast : j = n
      · subst hlast
        exact PagingState.entry_setEntry_self (by decide)
      · rw [PagingState.entry_setEntry_of_ne (by omega) hj fun h => hlast h.2]
        exact ih (by omega) (by omega)
  exact hloop 1024 (le_refl _) hj

theorem present_iff {e : ℕ} : e &&& pagePresent = 0 ↔ ¬Present e := by
  have hmask : e &&& pagePresent = e % 2 := and_low 1 e
  rw [hmask]
  unfold Present
  omega

theorem and_offset (x : ℕ) : x &&& 0xFFF = x % 4096 := and_low 12 x

theorem clearLow_entry {e : ℕ} (he : e < wordSize) : clearLow 12 e = e / 4096 * 4096 :=
  clearLow_eq (by decide) he

/-- The address is translated by the entry of the directory in frame `d` and the table in frame
`K`, to frame `g`. -/
structure Shows (s : PagingState) (d K va g : ℕ) : Prop where
  cr3 : s.cr3 = d * 4096
  aligned : va % 4096 = 0
  word : va < wordSize
  pde : Present (s.entry d (pdIndex va))
  table : s.entry d (pdIndex va) / 4096 = K
  pte : Present (s.entry K (ptIndex va))
  frame : s.entry K (ptIndex va) / 4096 = g

theorem pdIndex_lt (h : va < wordSize) : pdIndex va < 1024 := by
  unfold pdIndex
  simp only [wordSize] at h
  omega

theorem ptIndex_lt (va : ℕ) : ptIndex va < 1024 := Nat.mod_lt _ (by decide)

namespace Shows

theorem walk_eq (h : Shows s d K va g) {o : ℕ} (ho : o < 4096) :
    walk s.mem s.cr3 (va + o) = some (g * 4096 + o) := by
  have haligned := h.aligned
  have hpd : pdIndex (va + o) = pdIndex va := by
    unfold pdIndex
    omega
  have hpt : ptIndex (va + o) = ptIndex va := by
    unfold ptIndex
    omega
  have hoff : (va + o) % 4096 = o := by omega
  have hpde : load32 s.mem (s.cr3 + 4 * pdIndex va) = s.entry d (pdIndex va) := by
    rw [h.cr3]
    rfl
  have hpte : load32 s.mem (frameAddr (s.entry d (pdIndex va)) + 4 * ptIndex va) = s.entry K (ptIndex va) := by
    unfold frameAddr
    rw [h.table]
    rfl
  unfold walk
  rw [hpd, hpt, hpde, if_pos h.pde]
  dsimp only
  rw [hpte, if_pos h.pte, frameAddr, h.frame, hoff]

theorem translate_eq (h : Shows s d K va g) {o : ℕ} (ho : o < 4096) :
    s.translate (va + o) = .ok (g * 4096 + o) := by
  unfold PagingState.translate
  rw [h.walk_eq ho]

theorem read_eq (h : Shows s d K va g) (hj : j < 1024) : s.read (va + 4 * j) = .ok (s.entry g j) := by
  unfold PagingState.read
  rw [h.translate_eq (by omega)]
  rfl

theorem write_eq (h : Shows s d K va g) (hj : j < 1024) : s.write (va + 4 * j) v = .ok (s.setEntry g j v) := by
  unfold PagingState.write
  rw [h.translate_eq (by omega)]
  rfl

theorem writeByte_eq (h : Shows s d K va g) {o : ℕ} (ho : o < 4096) :
    s.writeByte (va + o) v = .ok { s with mem := store8 s.mem (g * 4096 + o) v } := by
  unfold PagingState.writeByte
  rw [h.translate_eq ho]
  rfl

/-- The translation stays when the two entries do. -/
theorem congr (h : Shows s d K va g) (hcr3 : t.cr3 = s.cr3)
    (hpde : t.entry d (pdIndex va) = s.entry d (pdIndex va))
    (hpte : t.entry K (ptIndex va) = s.entry K (ptIndex va)) : Shows t d K va g := by
  refine ⟨hcr3.trans h.cr3, h.aligned, h.word, ?_, ?_, ?_, ?_⟩
  · rw [hpde]
    exact h.pde
  · rw [hpde]
    exact h.table
  · rw [hpte]
    exact h.pte
  · rw [hpte]
    exact h.frame

theorem within {g' : ℕ} (h : Shows s d K va g) (hw : Within g' s t) (hd : d ≠ g') (hK : K ≠ g') :
    Shows t d K va g :=
  h.congr hw.cr3 (hw.entry hd (pdIndex_lt h.word)) (hw.entry hK (ptIndex_lt va))

/-- A table that is shown apart from itself can be cleared. -/
theorem zeroTable_eq (h : Shows s d K va g) (hd : d ≠ g) (hK : K ≠ g) :
    zeroTable va s = .ok (s.clearTable g) := by
  unfold zeroTable PagingState.clearTable
  have hloop : ∀ (l : List ℕ) (t : PagingState), (∀ i ∈ l, i < 1024) → Shows t d K va g →
      l.foldlM (fun s i => s.write (va + 4 * i) 0) t = .ok (l.foldl (fun s i => s.setEntry g i 0) t) := by
    intro l
    induction l with
    | nil => exact fun t _ _ => rfl
    | cons i l ih =>
      intro t hl ht
      have hi := hl i List.mem_cons_self
      rw [List.foldlM_cons, List.foldl_cons, ht.write_eq hi]
      exact ih _ (fun j hj => hl j (List.mem_cons_of_mem i hj)) (ht.within (within_setEntry hi) hd hK)
  exact hloop _ s (fun i hi => List.mem_range.mp hi) h

end Shows

/-- The directory in frame `d` is current, and its last entry leads back to it. -/
structure Window (s : PagingState) (d : ℕ) : Prop where
  cr3 : s.cr3 = d * 4096
  present : Present (s.entry d 1023)
  self : s.entry d 1023 / 4096 = d

namespace Window

theorem shows_pd (h : Window s d) : Shows s d d recursivePdBase d := by
  have hpd : pdIndex recursivePdBase = 1023 := by decide
  have hpt : ptIndex recursivePdBase = 1023 := by decide
  refine ⟨h.cr3, by decide, by decide, ?_, ?_, ?_, ?_⟩
  · rw [hpd]
    exact h.present
  · rw [hpd]
    exact h.self
  · rw [hpt]
    exact h.present
  · rw [hpt]
    exact h.self

theorem shows_pt (h : Window s d) (hp : p < 1024) (hpresent : Present (s.entry d p)) :
    Shows s d d (getPt p) (s.entry d p / 4096) := by
  have hva : getPt p = 0xFFC00000 + 4096 * p := rfl
  have hpd : pdIndex (getPt p) = 1023 := by
    rw [hva]
    unfold pdIndex
    omega
  have hpt : ptIndex (getPt p) = p := by
    rw [hva]
    unfold ptIndex
    omega
  refine ⟨h.cr3, ?_, ?_, ?_, ?_, ?_, ?_⟩
  · rw [hva]
    omega
  · rw [hva]
    simp only [wordSize]
    omega
  · rw [hpd]
    exact h.present
  · rw [hpd]
    exact h.self
  · rw [hpt]
    exact hpresent
  · rw [hpt]

theorem congr (h : Window s d) (hcr3 : t.cr3 = s.cr3) (hself : t.entry d 1023 = s.entry d 1023) :
    Window t d := by
  refine ⟨hcr3.trans h.cr3, ?_, ?_⟩
  · rw [hself]
    exact h.present
  · rw [hself]
    exact h.self

theorem setEntry (h : Window s d) (hj : j < 1024) (hne : ¬(f = d ∧ j = 1023)) : Window (s.setEntry f j v) d := by
  refine h.congr rfl (PagingState.entry_setEntry_of_ne hj (by decide) fun he => hne ⟨he.1.symm, he.2.symm⟩)

end Window

end HekaOS.Paging
