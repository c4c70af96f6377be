import Mathlib.Data.List.GetD
import HekaOS.Vga

/-!
# What the VGA driver's loops do to the rows of video memory

Every loop of the driver stores into one row; `Drawn` says what such a loop leaves alone and which
stores it makes. The contents follow row by row, without a look at single addresses.
-/

namespace HekaOS.Vga

/-- The cells of a row. -/
abbrev Row := Fin vgaX → Cell

def Display.rowAt (v : Display) (r : ℕ) : Row := fun c => v.terminalBuffer (r * vgaX + c)

theorem cell_eq_iff {r s : ℕ} {c d : ℕ} (hc : c < vgaX) (hd : d < vgaX) :
    r * vgaX + c = s * vgaX + d ↔ r = s ∧ c = d := by
  simp only [vgaX] at *
  omega

theorem row_of_cell {r c : ℕ} (hc : c < vgaX) : (r * vgaX + c) / vgaX = r := by
  simp only [vgaX] at *
  omega

/-- `v'` is `v` after stores into the row `r`. -/
structure Drawn (brush : Brush) (r : ℕ) (v v' : Display) : Prop where
  same : v' = { v with terminalBuffer := v'.terminalBuffer, writes := v'.writes }
  rows : ∀ s, s ≠ r → v'.rowAt s = v.rowAt s
  writes : ∃ ws, v'.writes = v.writes ++ ws ∧
    ∀ w ∈ ws, w.brush = brush ∧ w.viewTop = v.vgaViewTop ∧ w.index / vgaX = r

variable {brush : Brush} {r : ℕ} {v v' v'' : Display}

theorem Drawn.refl (brush : Brush) (r : ℕ) (v : Display) : Drawn brush r v v :=
  ⟨rfl, fun _ _ => rfl, [], by simp, by simp⟩

theorem Drawn.viewTop (h : Drawn brush r v v') : v'.vgaViewTop = v.vgaViewTop := by
  rw [h.same]

theorem Drawn.statusbar (h : Drawn brush r v v') : v'.statusbarColor = v.statusbarColor := by
  rw [h.same]

theorem Drawn.trans (h : Drawn brush r v v') (h' : Drawn brush r v' v'') : Drawn brush r v v'' := by
  obtain ⟨ws, hws, hall⟩ := h.writes
  obtain ⟨ws', hws', hall'⟩ := h'.writes
  refine ⟨?_, fun s hs => (h'.rows s hs).trans (h.rows s hs), ws ++ ws', ?_, ?_⟩
  · have hsame := h'.same
    rw [h.same] at hsame
    exact hsame
  · rw [hws', hws, List.append_assoc]
  · intro w hw
    rcases List.mem_append.mp hw with hw | hw
    · exact hall w hw
    · have := hall' w hw
      rwa [h.viewTop] at this

theorem Drawn.put {c : ℕ} (hc : c < vgaX) (e : Cell) : Drawn brush r v (v.put brush (r * vgaX + c) e) := by
  refine ⟨rfl, fun s hs => ?_, [⟨brush, v.vgaViewTop, r * vgaX + c⟩], rfl, ?_⟩
  · funext d
    apply Function.update_of_ne
    intro heq
    exact hs ((cell_eq_iff d.isLt hc).mp heq).1
  · intro w hw
    rw [List.mem_singleton] at hw
    subst hw
    exact ⟨rfl, rfl, row_of_cell hc⟩

theorem put_rowAt {c : ℕ} (hc : c < vgaX) (e : Cell) :
    (v.put brush (r * vgaX + c) e).rowAt r = Function.update (v.rowAt r) ⟨c, hc⟩ e := by
  funext d
  by_cases hd : d = ⟨c, hc⟩
  · subst hd
    simp [Display.rowAt, Display.put]
  · rw [Function.update_of_ne hd]
    apply Function.update_of_ne
    intro heq
    exact hd (Fin.ext ((cell_eq_iff d.isLt hc).mp heq).2)

theorem fill_succ (base : ℕ) (f : Display → ℕ → Cell) (n : ℕ) :
    v.fill brush base f (n + 1) =
      (v.fill brush base f n).put brush (base + n) (f (v.fill brush base f n) n) := by
  simp only [Display.fill, List.range_succ, List.foldl_append, List.foldl_cons, List.foldl_nil]

theorem Drawn.fill {col n : ℕ} (f : Display → ℕ → Cell) (hn : col + n ≤ vgaX) :
    Drawn brush r v (v.fill brush (r * vgaX + col) f n) := by
  induction n with
  | zero => exact .refl brush r v
  | succ n ih =>
    rw [fill_succ, Nat.add_assoc]
    exact (ih (by omega)).trans (.put (by omega) _)

/-- A loop whose cells do not depend on what it has drawn so far. -/
theorem fill_rowAt {col n : ℕ} {f : Display → ℕ → Cell} {g : ℕ → Cell} (hn : col + n ≤ vgaX)
    (hf : ∀ v', Drawn brush r v v' → ∀ x < n, f v' x = g x) (c : Fin vgaX) :
    (v.fill brush (r * vgaX + col) f n).rowAt r c =
      if col ≤ c ∧ c < col + n then g (c - col) else v.rowAt r c := by
  induction n with
  | zero =>
    rw [if_neg (by omega)]
    rfl
  | succ n ih =>
    have hprev := ih (by omega) fun v' hv' x hx => hf v' hv' x (by omega)
    rw [fill_succ, Nat.add_assoc, put_rowAt (by omega), hf _ (.fill f (by omega)) n (by omega)]
    by_cases hlast : c = ⟨col + n, by omega⟩
    · subst hlast
      rw [Function.update_self, if_pos (by simp)]
      simp
    · have hne : (c : ℕ) ≠ col + n := fun heq => hlast (Fin.ext heq)
      rw [Function.update_of_ne hlast, hprev]
      congr 1
      simp only [eq_iff_iff]
      omega

theorem fill_row {f : Display → ℕ → Cell} {g : ℕ → Cell}
    (hf : ∀ v', Drawn brush r v v' → ∀ x < vgaX, f v' x = g x) :
    (v.fill brush (r * vgaX) f vgaX).rowAt r = fun c : Fin vgaX => g c := by
  funext c
  have hcell : (v.fill brush (r * vgaX + 0) f vgaX).rowAt r c = if 0 ≤ (c : ℕ) ∧ c < 0 + vgaX then g (c - 0) else _ :=
    fill_rowAt (by omega) hf c
  rw [if_pos (by omega)] at hcell
  exact hcell

theorem Drawn.fillRow (f : Display → ℕ → Cell) : Drawn brush r v (v.fill brush (r * vgaX) f vgaX) := by
  have hdrawn : Drawn brush r v (v.fill brush (r * vgaX + 0) f vgaX) := .fill f (by omega)
  exact hdrawn

/-- The copy of a row to another one. -/
theorem copy_row {s : ℕ} (hs : s ≠ r) :
    (v.fill brush (r * vgaX) (fun v c => v.terminalBuffer (s * vgaX + c)) vgaX).rowAt r = v.rowAt s := by
  apply fill_row (g := fun c => v.terminalBuffer (s * vgaX + c))
  intro v' hv' x hx
  exact congrFun (hv'.rows s hs) ⟨x, hx⟩

def blankRow (color : Byte) : Row := fun _ => vgaEntry 32 color

theorem blank_row {color : Display → Byte} (hcolor : ∀ v', Drawn brush r v v' → color v' = color v) :
    (v.fill brush (r * vgaX) (fun v _ => vgaEntry 32 (color v)) vgaX).rowAt r = blankRow (color v) := by
  apply fill_row (g := fun _ => vgaEntry 32 (color v))
  intro v' hv' x _
  rw [hcolor v' hv']

/-! ### The bar -/

theorem Drawn.barWriteStr {s : List Byte} {col : ℕ} :
    Drawn .bar r v (barWriteStr (r * vgaX) s col v) := by
  induction s generalizing col v with
  | nil => exact .refl .bar r v
  | cons c s ih =>
    unfold Vga.barWriteStr
    split
    · exact Drawn.trans (.put ‹_› _) ih
    · exact .refl .bar r v

theorem barWriteStr_rowAt {s : List Byte} {col : ℕ} (hs : col + s.length ≤ vgaX) (c : Fin vgaX) :
    (barWriteStr (r * vgaX) s col v).rowAt r c =
      if col ≤ c ∧ c < col + s.length then vgaEntry (s.getD (c - col) 32) v.statusbarColor else v.rowAt r c := by
  induction s generalizing col v with
  | nil =>
    rw [if_neg (by simp only [List.length_nil]; omega)]
    rfl
  | cons a s ih =>
    simp only [List.length_cons] at hs ⊢
    have hcol : col < vgaX := by omega
    rw [barWriteStr, if_pos hcol, ih (by omega), put_rowAt hcol]
    by_cases hfirst : c = ⟨col, hcol⟩
    · subst hfirst
      rw [if_neg (by simp), Function.update_self, if_pos (by simp)]
      simp
    · have hne : (c : ℕ) ≠ col := fun heq => hfirst (Fin.ext heq)
      rw [Function.update_of_ne hfirst]
      by_cases hin : col + 1 ≤ (c : ℕ) ∧ (c : ℕ) < col + 1 + s.length
      · rw [if_pos hin, if_pos (by omega)]
        have hsub : (c : ℕ) - col = (c - (col + 1)) + 1 := by omega
        rw [hsub, List.getD_cons_succ]
        rfl
      · rw [if_neg hin, if_neg (by omega)]

theorem tmpDigits_length (fuel n : ℕ) : (tmpDigits fuel n).length ≤ fuel := by
  induction fuel generalizing n with
  | zero => simp [tmpDigits]
  | succ fuel ih =>
    unfold tmpDigits
    split
    · simp
    · simpa using ih (n / 10)

theorem decimal_length (n : ℕ) : (decimal n).length ≤ 10 := by
  unfold decimal
  split
  · simp [chars]
  · simpa using tmpDigits_length 10 n

theorem statusRight_length (column line : ℕ) : (statusRight column line).length ≤ vgaX := by
  have hcolumn := decimal_length column
  have hline := decimal_length line
  simp only [statusRight, chars, List.length_append, List.length_map, vgaX]
  simp
  omega

/-- The status bar: the name of the mode on the left, the cursor on the right. -/
def statusRow (color : Byte) (column line : ℕ) : Row := fun c =>
  let right := statusRight column line
  if vgaX - right.length ≤ c then vgaEntry (right.getD (c - (vgaX - right.length)) 0) color
  else vgaEntry ((chars " VGA text 80x25").getD c 32) color

theorem Drawn.barWriteRight {right : List Byte} (h : right.length ≤ vgaX) :
    Drawn .bar r v (barWriteRight (r * vgaX) right v) :=
  .fill _ (by omega)

theorem Drawn.statusbarDrawAt : Drawn .bar r v (statusbarDrawAt r v) := by
  apply Drawn.trans (.fillRow fun v _ => vgaEntry 32 v.statusbarColor)
  apply Drawn.barWriteStr.trans
  exact Drawn.barWriteRight (statusRight_length _ _)

theorem barWriteRight_rowAt {right : List Byte} (h : right.length ≤ vgaX) (c : Fin vgaX) :
    (barWriteRight (r * vgaX) right v).rowAt r c =
      if vgaX - right.length ≤ c then vgaEntry (right.getD (c - (vgaX - right.length)) 0) v.statusbarColor
      else v.rowAt r c := by
  have hcell : ∀ v', Drawn .bar r v v' → ∀ j < right.length,
      vgaEntry (right.getD j 0) v'.statusbarColor = vgaEntry (right.getD j 0) v.statusbarColor := by
    intro v' hv' j _
    rw [hv'.statusbar]
  rw [barWriteRight, fill_rowAt (Nat.sub_add_cancel h).le hcell]
  congr 1
  simp only [eq_iff_iff]
  omega

theorem statusbarDrawAt_rowAt (r : ℕ) (v : Display) :
    (statusbarDrawAt r v).rowAt r =
      statusRow v.statusbarColor v.terminalColumn (v.terminalRow - v.vgaViewTop) := by
  let v₁ := v.fill .bar (r * vgaX) (fun v _ => vgaEntry 32 v.statusbarColor) vgaX
  let v₂ := barWriteStr (r * vgaX) (chars " VGA text 80x25") 0 v₁
  have h₁ : Drawn .bar r v v₁ := .fillRow _
  have h₂ : Drawn .bar r v v₂ := h₁.trans .barWriteStr
  have hblank : v₁.rowAt r = blankRow v.statusbarColor := blank_row fun v' hv' => hv'.statusbar
  have hleft : (chars " VGA text 80x25").length = 15 := rfl
  have hdraw : statusbarDrawAt r v =
      barWriteRight (r * vgaX) (statusRight v.terminalColumn (v.terminalRow - v.vgaViewTop)) v₂ := by
    have hsame := h₂.same
    change barWriteRight (r * vgaX) (statusRight v₂.terminalColumn (v₂.terminalRow - v₂.vgaViewTop)) v₂ = _
    rw [hsame]
  funext c
  rw [hdraw, barWriteRight_rowAt (statusRight_length _ _), h₂.statusbar, statusRow]
  by_cases hin : vgaX - (statusRight v.terminalColumn (v.terminalRow - v.vgaViewTop)).length ≤ c
  · rw [if_pos hin, if_pos hin]
  · rw [if_neg hin, if_neg hin, barWriteStr_rowAt (by rw [hleft]; decide), h₁.statusbar, hblank]
    by_cases hin : (c : ℕ) < 15
    · rw [if_pos (by omega), Nat.sub_zero]
    · rw [if_neg (by omega), List.getD_eq_default _ _ (by omega)]
      rfl

/-! ### Loops over rows -/

/-- `v'` is `v` after stores into rows before `n`. -/
structure DrawnRows (brush : Brush) (n : ℕ) (v v' : Display) : Prop where
  same : v' = { v with terminalBuffer := v'.terminalBuffer, writes := v'.writes }
  rows : ∀ s, n ≤ s → v'.rowAt s = v.rowAt s
  writes : ∃ ws, v'.writes = v.writes ++ ws ∧
    ∀ w ∈ ws, w.brush = brush ∧ w.viewTop = v.vgaViewTop ∧ w.index / vgaX < n

theorem DrawnRows.snoc {n : ℕ} (h : DrawnRows brush n v v') (h' : Drawn brush n v' v'') :
    DrawnRows brush (n + 1) v v'' := by
  obtain ⟨ws, hws, hall⟩ := h.writes
  obtain ⟨ws', hws', hall'⟩ := h'.writes
  have htop : v'.vgaViewTop = v.vgaViewTop := by rw [h.same]
  refine ⟨?_, fun s hs => (h'.rows s (by omega)).trans (h.rows s (by omega)), ws ++ ws', ?_, ?_⟩
  · have hsame := h'.same
    rw [h.same] at hsame
    exact hsame
  · rw [hws', hws, List.append_assoc]
  · intro w hw
    rcases List.mem_append.mp hw with hw | hw
    · obtain ⟨hbrush, hview, hrow⟩ := hall w hw
      exact ⟨hbrush, hview, by omega⟩
    · obtain ⟨hbrush, hview, hrow⟩ := hall' w hw
      exact ⟨hbrush, hview.trans htop, by omega⟩

/-- A loop that fills the rows `0 .. n - 1` one after the other. -/
theorem rows_loop {f : ℕ → Display → ℕ → Cell} {g : ℕ → Row} (n : ℕ)
    (hf : ∀ r < n, ∀ v', DrawnRows brush r v v' → (v'.fill brush (r * vgaX) (f r) vgaX).rowAt r = g r) :
    DrawnRows brush n v ((List.range n).foldl (fun v r => v.fill brush (r * vgaX) (f r) vgaX) v) ∧
      ∀ k < n, ((List.range n).foldl (fun v r => v.fill brush (r * vgaX) (f r) vgaX) v).rowAt k = g k := by
  induction n with
  | zero => exact ⟨⟨rfl, fun _ _ => rfl, [], by simp, by simp⟩, fun k hk => absurd hk (Nat.not_lt_zero k)⟩
  | succ n ih =>
    obtain ⟨hdrawn, hrows⟩ := ih fun r hr => hf r (by omega)
    simp only [List.range_succ, List.foldl_append, List.foldl_cons, List.foldl_nil]
    refine ⟨hdrawn.snoc (.fillRow (f n)), fun k hk => ?_⟩
    by_cases hlast : k = n
    · subst hlast
      exact hf k (by omega) _ hdrawn
    · rw [(Drawn.fillRow (f n)).rows k hlast]
      exact hrows k (by omega)

end HekaOS.Vga
