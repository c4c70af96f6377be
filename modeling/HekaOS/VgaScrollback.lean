import HekaOS.VgaRows

/-!
# Scrollback

While the user looks at older rows, the indicator bar covers one row of history, which is kept in
`saved_bar`. Between any two calls all other rows are as they were, and `terminal_scroll_reset` puts
everything back.
-/

namespace HekaOS.Vga

variable {v v' v₀ : Display} {r b : ℕ}

theorem scrollbarRight_length (now total : ℕ) :
    (chars "pg " ++ decimal now ++ chars "/" ++ decimal total ++ chars " ").length ≤ vgaX := by
  have hnow := decimal_length now
  have htotal := decimal_length total
  simp only [chars, List.length_append, List.length_map, vgaX]
  simp
  omega

theorem Drawn.scrollbarDrawAt : Drawn .bar r v (scrollbarDrawAt r v) := by
  unfold Vga.scrollbarDrawAt
  apply Drawn.trans (.fillRow fun v _ => vgaEntry 32 v.statusbarColor)
  have hopen : ∀ {v : Display} {e : Cell}, Drawn .bar r v (v.put .bar (r * vgaX) e) := by
    intro v e
    have hput : Drawn .bar r v (v.put .bar (r * vgaX + 0) e) := .put (by decide) e
    exact hput
  have hblocks : 1 + scrollbarBarLen ≤ vgaX := by decide
  apply Drawn.trans hopen
  apply Drawn.trans (.fill _ hblocks)
  have hclose : ∀ {v : Display} {e : Cell}, Drawn .bar r v (v.put .bar (r * vgaX + 1 + scrollbarBarLen) e) := by
    intro v e
    rw [Nat.add_assoc]
    exact .put (by decide) e
  apply Drawn.trans hclose
  exact Drawn.barWriteRight (scrollbarRight_length _ _)

/-- Between `v` and `v'` only stores into the rows of video memory were made. -/
def Stores (v v' : Display) : Prop :=
  ∃ ws, v'.writes = v.writes ++ ws ∧ ∀ w ∈ ws, w.index < vgaTotalRows * vgaX

theorem Stores.of_eq (h : v'.writes = v.writes) : Stores v v' :=
  ⟨[], h.trans (List.append_nil _).symm, fun _ hw => nomatch hw⟩

theorem Stores.trans {v'' : Display} (h : Stores v v') (h' : Stores v' v'') : Stores v v'' := by
  obtain ⟨ws, hws, hall⟩ := h
  obtain ⟨ws', hws', hall'⟩ := h'
  refine ⟨ws ++ ws', ?_, fun w hw => ?_⟩
  · rw [hws', hws, List.append_assoc]
  · rcases List.mem_append.mp hw with hw | hw
    · exact hall w hw
    · exact hall' w hw

theorem Drawn.stores {brush : Brush} (h : Drawn brush r v v') (hr : r < vgaTotalRows) : Stores v v' := by
  obtain ⟨ws, hws, hall⟩ := h.writes
  refine ⟨ws, hws, fun w hw => ?_⟩
  have hrow := (hall w hw).2.2
  exact (Nat.div_lt_iff_lt_mul (by decide)).mp (by omega)

/-- What scrolling back never changes. -/
structure SameTerminal (v₀ v : Display) : Prop where
  viewTop : v.vgaViewTop = v₀.vgaViewTop
  row : v.terminalRow = v₀.terminalRow
  column : v.terminalColumn = v₀.terminalColumn
  bar : v.statusbarColor = v₀.statusbarColor
  stores : Stores v₀ v

theorem SameTerminal.drawn (h : SameTerminal v₀ v) (hdrawn : Drawn .bar r v v') (hr : r < vgaTotalRows) :
    SameTerminal v₀ v' := by
  have hsame := hdrawn.same
  refine ⟨?_, ?_, ?_, ?_, h.stores.trans (hdrawn.stores hr)⟩
  · rw [hsame]
    exact h.viewTop
  · rw [hsame]
    exact h.row
  · rw [hsame]
    exact h.column
  · rw [hsame]
    exact h.bar

/-- A terminal that is not scrolled back, with its status bar drawn. -/
structure AtBottom (v : Display) : Prop where
  top_le : v.vgaViewTop ≤ vgaMaxViewTop
  live : v.scrollBack = 0
  unsaved : v.savedBarValid = false
  bar : v.rowAt (v.vgaViewTop + usableRows) =
    statusRow v.statusbarColor v.terminalColumn (v.terminalRow - v.vgaViewTop)
  start : v.start = BitVec.ofNat 16 (v.vgaViewTop * vgaX)

/-- The row that the indicator bar covers. -/
def Display.barRow (v : Display) : ℕ := v.vgaViewTop - v.scrollBack + usableRows

/-- A state between two calls, where `v₀` is the one before the first. -/
structure Browsing (v₀ v : Display) : Prop where
  terminal : SameTerminal v₀ v
  back_le : v.scrollBack ≤ min v₀.vgaViewTop scrollbackRows
  start : v.start = BitVec.ofNat 16 ((v₀.vgaViewTop - v.scrollBack) * vgaX)
  unsaved : v.scrollBack = 0 → v.savedBarValid = false
  saved : 0 < v.scrollBack → v.savedBarValid = true ∧ v.savedBarRow = v.barRow ∧
    ∀ c : Fin vgaX, v.savedBar c = v₀.rowAt v.barRow c
  rows : ∀ r, ¬(0 < v.scrollBack ∧ r = v.barRow) → v.rowAt r = v₀.rowAt r

/-- Every row is as it was. -/
structure Restored (v₀ v : Display) : Prop where
  terminal : SameTerminal v₀ v
  unsaved : v.savedBarValid = false
  rows : ∀ r, v.rowAt r = v₀.rowAt r

theorem AtBottom.browsing (h : AtBottom v) : Browsing v v := by
  have hlive := h.live
  refine ⟨⟨rfl, rfl, rfl, rfl, .of_eq rfl⟩, ?_, ?_, fun _ => h.unsaved, fun hpos => ?_, fun _ _ => rfl⟩
  · rw [hlive]
    exact Nat.zero_le _
  · rw [hlive, Nat.sub_zero]
    exact h.start
  · omega

/-- Before the bar moves, the row that it covers is put back. -/
theorem Browsing.restore (h : Browsing v₀ v) (htop : v₀.vgaViewTop ≤ vgaMaxViewTop) :
    Restored v₀ (scrollbackRestore v) ∧ (scrollbackRestore v).scrollBack = v.scrollBack := by
  have hview := h.terminal.viewTop
  by_cases hpos : 0 < v.scrollBack
  · obtain ⟨hvalid, hrow, hsaved⟩ := h.saved hpos
    obtain ⟨filled, hfilled⟩ : ∃ filled, filled = v.fill .bar (v.barRow * vgaX) (fun v x => v.savedBar x) vgaX := ⟨_, rfl⟩
    have hrestore : scrollbackRestore v = { filled with savedBarValid := false } := by
      rw [scrollbackRestore, if_pos hvalid, hrow, hfilled]
    have hdrawn : Drawn .bar v.barRow v filled := by
      rw [hfilled]
      exact .fillRow _
    have hbar : v.barRow < vgaTotalRows := by
      have hback := h.back_le
      simp only [Display.barRow, vgaMaxViewTop, vgaTotalRows, vgaY, usableRows] at *
      omega
    have hcells : filled.rowAt v.barRow = fun c : Fin vgaX => v.savedBar c := by
      rw [hfilled]
      refine fill_row fun v' hv' x _ => ?_
      rw [hv'.same]
    have hsame := h.terminal.drawn hdrawn hbar
    rw [hrestore]
    refine ⟨⟨⟨hsame.viewTop, hsame.row, hsame.column, hsame.bar, hsame.stores⟩, rfl, fun r => ?_⟩, ?_⟩
    · change filled.rowAt r = _
      by_cases hr : r = v.barRow
      · rw [hr, hcells]
        funext c
        exact hsaved c
      · rw [hdrawn.rows r hr]
        exact h.rows r fun hcov => hr hcov.2
    · change filled.scrollBack = _
      rw [hdrawn.same]
  · have hzero : v.scrollBack = 0 := by omega
    have hunsaved := h.unsaved hzero
    have hrestore : scrollbackRestore v = v := by
      rw [scrollbackRestore, if_neg (by rw [hunsaved]; exact Bool.false_ne_true)]
    rw [hrestore]
    exact ⟨⟨h.terminal, hunsaved, fun r => h.rows r fun hcov => hpos hcov.1⟩, rfl⟩

/-- The status bar is drawn over itself. -/
theorem Restored.statusbarDraw (h : Restored v₀ v) (h₀ : AtBottom v₀) : Restored v₀ (statusbarDraw v) := by
  have hview := h.terminal.viewTop
  have hdrawn : Drawn .bar (v.vgaViewTop + usableRows) v (Vga.statusbarDraw v) := Drawn.statusbarDrawAt
  have hbar : (Vga.statusbarDraw v).rowAt (v.vgaViewTop + usableRows) = _ := statusbarDrawAt_rowAt _ v
  have hlt : v.vgaViewTop + usableRows < vgaTotalRows := by
    have htop := h₀.top_le
    simp only [vgaMaxViewTop, vgaTotalRows, vgaY, usableRows] at *
    omega
  refine ⟨h.terminal.drawn hdrawn hlt, ?_, fun r => ?_⟩
  · rw [hdrawn.same]
    exact h.unsaved
  · by_cases hr : r = v.vgaViewTop + usableRows
    · rw [hr, hbar, h.terminal.bar, h.terminal.column, h.terminal.row, hview, h₀.bar]
    · rw [hdrawn.rows r hr]
      exact h.rows r

/-- The rest of both calls: the start and the cursor. -/
def showRow (row : ℕ) (v : Display) : Display := terminalUpdateCursor (vgaSetStart row v)

theorem showRow_same (row : ℕ) (v : Display) :
    showRow row v = { v with start := BitVec.ofNat 16 (row * vgaX), cursor := (showRow row v).cursor } := by
  unfold showRow terminalUpdateCursor vgaSetStart
  split
  · rfl
  · rfl

/-- A call that ends at the bottom. -/
theorem Restored.bottom (h : Restored v₀ v) (hzero : v.scrollBack = 0) :
    Browsing v₀ (showRow v₀.vgaViewTop v) := by
  rw [showRow_same]
  have hterminal := h.terminal
  refine ⟨⟨hterminal.viewTop, hterminal.row, hterminal.column, hterminal.bar, hterminal.stores⟩, ?_, ?_, ?_, ?_, ?_⟩
  · change v.scrollBack ≤ _
    rw [hzero]
    exact Nat.zero_le _
  · change BitVec.ofNat 16 (v₀.vgaViewTop * vgaX) = BitVec.ofNat 16 ((v₀.vgaViewTop - v.scrollBack) * vgaX)
    rw [hzero, Nat.sub_zero]
  · exact fun _ => h.unsaved
  · intro hpos
    exact absurd hzero (Nat.ne_of_gt hpos)
  · exact fun r _ => h.rows r

/-- A call that ends with the indicator bar drawn. -/
theorem Restored.covered (h : Restored v₀ v) (htop : v₀.vgaViewTop ≤ vgaMaxViewTop) (hpos : 0 < v.scrollBack)
    (hback : v.scrollBack ≤ min v₀.vgaViewTop scrollbackRows) :
    Browsing v₀ (showRow (v₀.vgaViewTop - v.scrollBack) (scrollbackSaveAndDraw v.barRow v)) := by
  have hview := h.terminal.viewTop
  obtain ⟨saved, hsaved⟩ : ∃ saved : Display, saved = { v with
      savedBar := fun x => if x < vgaX then v.terminalBuffer (v.barRow * vgaX + x) else v.savedBar x
      savedBarRow := v.barRow, savedBarValid := true } := ⟨_, rfl⟩
  obtain ⟨drawn, hdraw⟩ : ∃ drawn, drawn = scrollbackSaveAndDraw v.barRow v := ⟨_, rfl⟩
  have hdrawn : Drawn .bar v.barRow saved drawn := by
    rw [hdraw, hsaved]
    exact Drawn.scrollbarDrawAt
  have hbar : v.barRow < vgaTotalRows := by
    simp only [Display.barRow, vgaMaxViewTop, vgaTotalRows, vgaY, usableRows] at *
    omega
  have hrows : ∀ r, saved.rowAt r = v.rowAt r := fun r => by rw [hsaved]; rfl
  have hterminal : SameTerminal v₀ saved := by
    rw [hsaved]
    exact ⟨hview, h.terminal.row, h.terminal.column, h.terminal.bar, h.terminal.stores⟩
  have hsame := hterminal.drawn hdrawn hbar
  have hscroll : drawn.scrollBack = v.scrollBack := by rw [hdrawn.same, hsaved]
  have hrow : drawn.barRow = v.barRow := by
    rw [Display.barRow, hscroll, hsame.viewTop, Display.barRow, hview]
  rw [← hdraw, showRow_same]
  refine ⟨⟨hsame.viewTop, hsame.row, hsame.column, hsame.bar, hsame.stores⟩, ?_, ?_, ?_, ?_, ?_⟩
  · change drawn.scrollBack ≤ _
    rw [hscroll]
    exact hback
  · change BitVec.ofNat 16 _ = BitVec.ofNat 16 ((v₀.vgaViewTop - drawn.scrollBack) * vgaX)
    rw [hscroll]
  · intro hzero
    have hzero : drawn.scrollBack = 0 := hzero
    omega
  · intro _
    change drawn.savedBarValid = true ∧ drawn.savedBarRow = drawn.barRow ∧
      ∀ c : Fin vgaX, drawn.savedBar c = v₀.rowAt drawn.barRow c
    rw [hrow, hdrawn.same, hsaved]
    refine ⟨rfl, rfl, fun c => ?_⟩
    rw [← h.rows]
    exact if_pos c.isLt
  · intro r hr
    change drawn.rowAt r = _
    have hne : r ≠ v.barRow := by
      rintro rfl
      refine hr ⟨?_, hrow.symm⟩
      change 0 < drawn.scrollBack
      rw [hscroll]
      exact hpos
    rw [hdrawn.rows r hne, hrows]
    exact h.rows r

/-- The rows that `terminal_scroll_lines` wants to be back by. -/
def backAfter (delta : ℤ) (v : Display) : ℕ :=
  let maxBack := if v.vgaViewTop < scrollbackRows then v.vgaViewTop else scrollbackRows
  if delta < 0 then
    if v.scrollBack + delta.natAbs > maxBack then maxBack else v.scrollBack + delta.natAbs
  else if delta > 0 then if delta.natAbs ≥ v.scrollBack then 0 else v.scrollBack - delta.natAbs
  else v.scrollBack

/-- The restoring loop does not look at `scroll_back`. -/
theorem scrollbackRestore_back (b : ℕ) (v : Display) :
    scrollbackRestore { v with scrollBack := b } = { scrollbackRestore v with scrollBack := b } := by
  have hfill : ∀ n, Display.fill .bar (v.savedBarRow * vgaX) (fun v x => v.savedBar x) n { v with scrollBack := b } =
      { v.fill .bar (v.savedBarRow * vgaX) (fun v x => v.savedBar x) n with scrollBack := b } := by
    intro n
    induction n with
    | zero => rfl
    | succ n ih =>
      rw [fill_succ, fill_succ, ih]
      rfl
  unfold scrollbackRestore
  dsimp only
  split
  · rw [hfill]
  · rfl

/-- What is left of the call behind `scrollback_restore`. -/
def drawBar (u : Display) : Display :=
  let w := if u.scrollBack > 0 then scrollbackSaveAndDraw (u.vgaViewTop - u.scrollBack + usableRows) u else statusbarDraw u
  showRow (w.vgaViewTop - w.scrollBack) w

/-- The call sets `scroll_back` and puts the covered row back, and then draws one of the bars. -/
theorem terminalScrollLines_eq (delta : ℤ) (v : Display) :
    terminalScrollLines delta v = drawBar { scrollbackRestore v with scrollBack := backAfter delta v } := by
  have hback : (if delta < 0 then
      { v with scrollBack := if v.scrollBack + delta.natAbs > (if v.vgaViewTop < scrollbackRows then v.vgaViewTop
        else scrollbackRows) then (if v.vgaViewTop < scrollbackRows then v.vgaViewTop else scrollbackRows)
        else v.scrollBack + delta.natAbs }
      else if delta > 0 then { v with scrollBack := if delta.natAbs ≥ v.scrollBack then 0 else v.scrollBack - delta.natAbs }
      else v) = { v with scrollBack := backAfter delta v } := by
    unfold backAfter
    dsimp only
    by_cases hneg : delta < 0
    · rw [if_pos hneg, if_pos hneg]
    · rw [if_neg hneg, if_neg hneg]
      by_cases hpos : delta > 0
      · rw [if_pos hpos, if_pos hpos]
      · rw [if_neg hpos, if_neg hpos]
  rw [← scrollbackRestore_back, ← hback]
  rfl

/-- One of the bars is drawn, according to `scroll_back`. -/
theorem Restored.drawBar {u : Display} (h : Restored v₀ u) (h₀ : AtBottom v₀)
    (hback : u.scrollBack ≤ min v₀.vgaViewTop scrollbackRows) : Browsing v₀ (drawBar u) := by
  unfold Vga.drawBar
  by_cases hpos : 0 < u.scrollBack
  · have hsame : ∃ w, w = scrollbackSaveAndDraw u.barRow u ∧ w.vgaViewTop = v₀.vgaViewTop ∧ w.scrollBack = u.scrollBack := by
      refine ⟨_, rfl, ?_⟩
      rw [scrollbackSaveAndDraw, Drawn.scrollbarDrawAt.same]
      exact ⟨h.terminal.viewTop, rfl⟩
    obtain ⟨w, hw, hview, hscroll⟩ := hsame
    have hcovered := h.covered h₀.top_le hpos hback
    rw [← hw, ← hview, ← hscroll] at hcovered
    rw [if_pos hpos]
    change Browsing v₀ (showRow ((scrollbackSaveAndDraw u.barRow u).vgaViewTop - (scrollbackSaveAndDraw u.barRow u).scrollBack)
      (scrollbackSaveAndDraw u.barRow u))
    rw [← hw]
    exact hcovered
  · have hbar := h.statusbarDraw h₀
    have hzero : (Vga.statusbarDraw u).scrollBack = 0 := by
      rw [Vga.statusbarDraw, Drawn.statusbarDrawAt.same]
      exact Nat.eq_zero_of_not_pos hpos
    rw [if_neg hpos]
    dsimp only
    rw [hzero, Nat.sub_zero, hbar.terminal.viewTop]
    exact hbar.bottom hzero

theorem Browsing.backAfter_le (h : Browsing v₀ v) (delta : ℤ) : backAfter delta v ≤ min v₀.vgaViewTop scrollbackRows := by
  have hback := h.back_le
  have hview := h.terminal.viewTop
  unfold backAfter
  dsimp only
  split_ifs <;> omega

theorem Restored.withBack (h : Restored v₀ v) (b : ℕ) : Restored v₀ { v with scrollBack := b } := by
  have hterminal := h.terminal
  exact ⟨⟨hterminal.viewTop, hterminal.row, hterminal.column, hterminal.bar, hterminal.stores⟩, h.unsaved, h.rows⟩

/-- One call. -/
theorem Browsing.scrollLines (h : Browsing v₀ v) (h₀ : AtBottom v₀) (delta : ℤ) :
    Browsing v₀ (terminalScrollLines delta v) := by
  have hrestored := (h.restore h₀.top_le).1.withBack (backAfter delta v)
  rw [terminalScrollLines_eq]
  exact hrestored.drawBar h₀ (h.backAfter_le delta)

theorem Browsing.run (h₀ : AtBottom v₀) (deltas : List ℤ) (h : Browsing v₀ v) :
    Browsing v₀ (deltas.foldl (fun v delta => terminalScrollLines delta v) v) := by
  induction deltas generalizing v with
  | nil => exact h
  | cons delta deltas ih => exact ih (h.scrollLines h₀ delta)

/-- The reset. -/
theorem Browsing.reset (h : Browsing v₀ v) (h₀ : AtBottom v₀) :
    Browsing v₀ (terminalScrollReset v) ∧ (terminalScrollReset v).scrollBack = 0 := by
  unfold terminalScrollReset
  by_cases hpos : v.scrollBack > 0
  · have hrestored := (h.restore h₀.top_le).1.withBack 0
    have hbar := hrestored.statusbarDraw h₀
    have hview := hbar.terminal.viewTop
    have hzero : (statusbarDraw { scrollbackRestore v with scrollBack := 0 }).scrollBack = 0 := by
      rw [statusbarDraw, Drawn.statusbarDrawAt.same]
    rw [if_pos hpos]
    dsimp only
    rw [hview]
    have hshown := hbar.bottom hzero
    refine ⟨hshown, ?_⟩
    change (showRow v₀.vgaViewTop _).scrollBack = 0
    rw [showRow_same]
    exact hzero
  · rw [if_neg hpos]
    exact ⟨h, by omega⟩

/-- However the user scrolls, the view stays within the history and shows it above the bar, and after a reset
video memory and the start are as they were. -/
theorem scrollback_invisible (v₀ : Display) (h₀ : AtBottom v₀) (deltas : List ℤ) :
    let v := deltas.foldl (fun v delta => terminalScrollLines delta v) v₀
    v.scrollBack ≤ min v₀.vgaViewTop scrollbackRows ∧
      v.start = BitVec.ofNat 16 ((v₀.vgaViewTop - v.scrollBack) * 80) ∧
      (∀ r < 24, v.rowAt (v₀.vgaViewTop - v.scrollBack + r) = v₀.rowAt (v₀.vgaViewTop - v.scrollBack + r)) ∧
      (∀ r < 204, (terminalScrollReset v).rowAt r = v₀.rowAt r) ∧
      (terminalScrollReset v).start = v₀.start ∧
      Stores v₀ (terminalScrollReset v) := by
  have hrun := h₀.browsing.run h₀ deltas
  generalize deltas.foldl (fun v delta => terminalScrollLines delta v) v₀ = v at hrun
  obtain ⟨hreset, hzero⟩ := hrun.reset h₀
  refine ⟨hrun.back_le, hrun.start, fun r hr => ?_, fun r _ => ?_, ?_, hreset.terminal.stores⟩
  · refine hrun.rows _ ?_
    rintro ⟨-, hbar⟩
    rw [Display.barRow, hrun.terminal.viewTop] at hbar
    simp only [usableRows] at hbar
    omega
  · refine hreset.rows r ?_
    rintro ⟨hpos, -⟩
    omega
  · rw [hreset.start, hzero, Nat.sub_zero, h₀.start]

/-- Three rows of history, in which the user goes up two rows and down one. -/
theorem scrollback_invisible_three : ∃ v₀ : Display, v₀.vgaViewTop = 3 ∧
    let v := [-2, 1].foldl (fun v delta => terminalScrollLines delta v) v₀
    v.scrollBack ≤ min v₀.vgaViewTop scrollbackRows ∧
      v.start = BitVec.ofNat 16 ((v₀.vgaViewTop - v.scrollBack) * 80) ∧
      (∀ r < 24, v.rowAt (v₀.vgaViewTop - v.scrollBack + r) = v₀.rowAt (v₀.vgaViewTop - v.scrollBack + r)) ∧
      (∀ r < 204, (terminalScrollReset v).rowAt r = v₀.rowAt r) ∧
      (terminalScrollReset v).start = v₀.start ∧
      Stores v₀ (terminalScrollReset v) := by
  obtain ⟨u, hu⟩ : ∃ u : Display, u = ⟨3, 0, 7, 0x70, 3, 0, fun _ => 0, 0, false, fun _ => 0, 240, 0, []⟩ := ⟨_, rfl⟩
  have hsame : statusbarDraw u = _ := Drawn.statusbarDrawAt.same
  have hbar : (statusbarDraw u).rowAt (u.vgaViewTop + usableRows) = _ := statusbarDrawAt_rowAt _ u
  have hview : (statusbarDraw u).vgaViewTop = 3 := by rw [hsame, hu]
  have h₀ : AtBottom (statusbarDraw u) := by
    refine ⟨?_, ?_, ?_, ?_, ?_⟩
    · rw [hview]
      decide
    · rw [hsame, hu]
    · rw [hsame, hu]
    · rw [hsame] at hbar ⊢
      exact hbar
    · rw [hsame, hu]
      rfl
  exact ⟨statusbarDraw u, hview, scrollback_invisible _ h₀ _⟩

end HekaOS.Vga
