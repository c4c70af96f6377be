import HekaOS.NumberOutput
import HekaOS.ShellLine
import HekaOS.VgaScrollback

/-!
# The view of a terminal in use

Whatever is printed, the view is at the bottom, and wherever the user has scrolled to, `terminal_scroll_reset`
brings the terminal back.
-/

namespace HekaOS.Vga

variable {v v' v₀ : Display} {t : Terminal} {brush : Brush} {base n : ℕ}

/-- Nothing is scrolled back, and the hardware shows the view. -/
structure Tidy (v : Display) : Prop where
  live : v.scrollBack = 0
  unsaved : v.savedBarValid = false
  start : v.start = BitVec.ofNat 16 (v.vgaViewTop * vgaX)

theorem fill_same (f : Display → ℕ → Cell) : v.fill brush base f n =
    { v with terminalBuffer := (v.fill brush base f n).terminalBuffer, writes := (v.fill brush base f n).writes } := by
  induction n with
  | zero => rfl
  | succ n ih =>
    rw [fill_succ]
    rw [ih]
    rfl

/-- Stores into video memory leave the view alone. -/
theorem Tidy.stores (h : Tidy v) (hsame : v' = { v with terminalBuffer := v'.terminalBuffer, writes := v'.writes }) :
    Tidy v' := by
  obtain ⟨hlive, hunsaved, hstart⟩ := h
  rw [hsame]
  exact ⟨hlive, hunsaved, hstart⟩

theorem Tidy.statusbarDraw (h : Tidy v) : Tidy (statusbarDraw v) := h.stores (statusbarDraw_same v)

theorem Tidy.cursor (h : Tidy v) : Tidy (terminalUpdateCursor v) := by
  rw [terminalUpdateCursor_same]
  exact ⟨h.live, h.unsaved, h.start⟩

theorem vgaSetStart_tidy (hlive : v.scrollBack = 0) (hunsaved : v.savedBarValid = false) :
    Tidy (vgaSetStart v.vgaViewTop v) := ⟨hlive, hunsaved, rfl⟩

/-- A scroll moves the view with the text. -/
theorem Tidy.terminalScroll (h : Tidy v) : Tidy (terminalScroll v) := by
  have hmoved : ∀ u : Display, u.scrollBack = 0 → u.savedBarValid = false → Tidy (Vga.statusbarDraw
      (if u.scrollBack = 0 then vgaSetStart u.vgaViewTop u else u)) := by
    intro u hlive hunsaved
    rw [if_pos hlive]
    exact (vgaSetStart_tidy hlive hunsaved).statusbarDraw
  unfold Vga.terminalScroll
  by_cases hfull : v.vgaViewTop = vgaMaxViewTop
  · simp only [if_pos hfull]
    apply hmoved
    · rw [fill_same]
      rfl
    · rw [fill_same]
      rfl
  · simp only [if_neg hfull]
    apply hmoved
    · rw [fill_same]
      exact h.live
    · rw [fill_same]
      exact h.unsaved

theorem Tidy.nextRow (h : Tidy v) : Tidy (nextRow v) := by
  obtain ⟨hlive, hunsaved, hstart⟩ := h
  have hmoved : Tidy { v with terminalColumn := 0, terminalRow := v.terminalRow + 1 } := ⟨hlive, hunsaved, hstart⟩
  unfold Vga.nextRow
  dsimp only
  split
  · exact hmoved.terminalScroll
  · exact hmoved

theorem Tidy.column (h : Tidy v) (x : ℕ) : Tidy { v with terminalColumn := x } := ⟨h.live, h.unsaved, h.start⟩

theorem Tidy.putentryat (h : Tidy v) (c color : Byte) (x y : ℕ) : Tidy (terminalPutentryat c color x y v) :=
  ⟨h.live, h.unsaved, h.start⟩

theorem Tidy.putchar (h : Tidy v) (c : Byte) : Tidy (terminalPutchar c v) := by
  unfold terminalPutchar
  by_cases hnl : c = 10
  · rw [if_pos hnl]
    exact h.nextRow.cursor.statusbarDraw
  rw [if_neg hnl]
  by_cases hcr : c = 13
  · rw [if_pos hcr]
    exact (h.column 0).cursor.statusbarDraw
  rw [if_neg hcr]
  by_cases hbs : c = 8
  · rw [if_pos hbs]
    by_cases hpos : v.terminalColumn > 0
    · rw [if_pos hpos]
      exact ((h.column (v.terminalColumn - 1)).putentryat 32 v.terminalColor _ _).cursor.statusbarDraw
    · rw [if_neg hpos]
      exact h
  rw [if_neg hbs]
  have hput : Tidy (terminalPutentryat c v.terminalColor v.terminalColumn v.terminalRow v) := h.putentryat _ _ _ _
  generalize terminalPutentryat c v.terminalColor v.terminalColumn v.terminalRow v = put at *
  have hmoved : Tidy { put with terminalColumn := put.terminalColumn + 1 } := hput.column _
  by_cases hend : put.terminalColumn + 1 = vgaX
  · simp only [if_pos hend]
    exact hmoved.nextRow.cursor.statusbarDraw
  · simp only [if_neg hend]
    exact hmoved.cursor.statusbarDraw

theorem terminalClear_tidy (v : Display) : Tidy (terminalClear v) := by
  obtain ⟨reset, hreset⟩ : ∃ reset : Display, reset = { v with
    terminalRow := 0, terminalColumn := 0, vgaViewTop := 0, scrollBack := 0, savedBarValid := false
    terminalColor := vgaEntryColor vgaColorLightGrey vgaColorBlack } := ⟨_, rfl⟩
  obtain ⟨blank, hblank, hdrawn, -⟩ := clear_loop reset
  have hsame := hdrawn.same
  have hview : blank.vgaViewTop = 0 ∧ blank.scrollBack = 0 ∧ blank.savedBarValid = false := by
    rw [hsame, hreset]
    exact ⟨rfl, rfl, rfl⟩
  have hstart : Tidy (vgaSetStart 0 blank) := by
    have htidy : Tidy (vgaSetStart blank.vgaViewTop blank) := vgaSetStart_tidy hview.2.1 hview.2.2
    rw [hview.1] at htidy
    exact htidy
  have heq : terminalClear v = terminalUpdateCursor (Vga.statusbarDraw (vgaSetStart 0 blank)) := by
    simp only [terminalClear, ← hreset, hblank]
  rw [heq]
  exact hstart.statusbarDraw.cursor

/-! ### What is on the screen -/

/-- The driver shows the ideal terminal, with the view at the bottom. -/
structure OnScreen (v : Display) (t : Terminal) : Prop where
  shows : Shows v t
  tidy : Tidy v

theorem OnScreen.putchar (h : OnScreen v t) (c : Byte) : OnScreen (terminalPutchar c v) (t.putchar c) :=
  ⟨(terminalPutchar_shows h.shows c).1, h.tidy.putchar c⟩

theorem OnScreen.setcolor (h : OnScreen v t) (color : Byte) : OnScreen (terminalSetcolor color v) (t.setcolor color) :=
  ⟨terminalSetcolor_shows color h.shows, h.tidy.live, h.tidy.unsaved, h.tidy.start⟩

theorem OnScreen.write (h : OnScreen v t) (l : List Byte) : OnScreen (terminalWrite l v) (t.print l) := by
  induction l generalizing v t with
  | nil => exact h
  | cons c l ih => exact ih (h.putchar c)

theorem terminalClear_onScreen (v : Display) : OnScreen (terminalClear v) .cleared :=
  ⟨(terminalClear_shows v).1, terminalClear_tidy v⟩

theorem OnScreen.prompt (h : OnScreen v t) : OnScreen (shellPrintPrompt v) (prompted t) := by
  refine ⟨shellPrintPrompt_shows h.shows, ?_⟩
  have hname := (h.setcolor (vgaEntryColor vgaColorLightRed vgaColorBlack)).write (chars "hekaterm")
  have hsymbol := (hname.setcolor (vgaEntryColor vgaColorLightGrey vgaColorBlack)).write (chars "> ")
  exact (hsymbol.setcolor v.terminalColor).tidy

/-- The screen shows a terminal. -/
def Seen (v : Display) : Prop := ∃ t, OnScreen v t

theorem Seen.putchar (h : Seen v) (c : Byte) : Seen (terminalPutchar c v) := by
  obtain ⟨t, h⟩ := h
  exact ⟨t.putchar c, h.putchar c⟩

theorem Seen.write (h : Seen v) (l : List Byte) : Seen (terminalWrite l v) := by
  obtain ⟨t, h⟩ := h
  exact ⟨t.print l, h.write l⟩

/-- A number that could not be written would not be printed. -/
theorem Seen.uint (h : Seen v) (value : BitVec 32) (junk : ℕ → Byte) : Seen ((terminalWriteUint value junk v).getD v) := by
  unfold terminalWriteUint
  cases terminalWriteUintString value junk with
  | none => exact h
  | some str => exact h.write str

theorem Seen.hex (h : Seen v) (value : BitVec 32) (junk : ℕ → Byte) : Seen ((terminalWriteHex value junk v).getD v) := by
  unfold terminalWriteHex
  cases terminalWriteHexString value junk with
  | none => exact h
  | some str => exact h.write str

theorem seen_clear (v : Display) : Seen (terminalClear v) := ⟨.cleared, terminalClear_onScreen v⟩

theorem Seen.foldl {α : Type} {f : Display → α → Display} (hf : ∀ v a, Seen v → Seen (f v a)) (l : List α) (h : Seen v) :
    Seen (l.foldl f v) := by
  induction l generalizing v with
  | nil => exact h
  | cons a l ih => exact ih (hf v a h)

/-! ### Looking back -/

theorem OnScreen.atBottom (h : OnScreen v t) : AtBottom v := by
  obtain ⟨d, hwindow⟩ := h.shows.window
  exact ⟨hwindow.top_le, h.tidy.live, h.tidy.unsaved, h.shows.bar, h.tidy.start⟩

/-- The user has scrolled from `v₀` to `v`. -/
structure Looking (v₀ v : Display) : Prop where
  browsing : Browsing v₀ v
  color : v.terminalColor = v₀.terminalColor

theorem OnScreen.looking (h : OnScreen v t) : Looking v v := ⟨h.atBottom.browsing, rfl⟩

theorem scrollbackRestore_color (v : Display) : (scrollbackRestore v).terminalColor = v.terminalColor := by
  unfold scrollbackRestore
  split
  · rw [fill_same]
  · rfl

theorem statusbarDraw_color (v : Display) : (statusbarDraw v).terminalColor = v.terminalColor := by
  rw [statusbarDraw_same]

theorem showRow_color (row : ℕ) (v : Display) : (showRow row v).terminalColor = v.terminalColor := by
  rw [showRow_same]

theorem drawBar_color (v : Display) : (drawBar v).terminalColor = v.terminalColor := by
  unfold drawBar
  rw [showRow_color]
  split
  · rw [scrollbackSaveAndDraw, Drawn.scrollbarDrawAt.same]
  · exact statusbarDraw_color v

theorem Looking.scrollLines (h : Looking v₀ v) (h₀ : OnScreen v₀ t) (delta : ℤ) : Looking v₀ (terminalScrollLines delta v) := by
  refine ⟨h.browsing.scrollLines h₀.atBottom delta, ?_⟩
  rw [terminalScrollLines_eq, drawBar_color]
  exact (scrollbackRestore_color v).trans h.color

theorem terminalScrollReset_color (v : Display) : (terminalScrollReset v).terminalColor = v.terminalColor := by
  unfold terminalScrollReset
  split
  · change (showRow _ _).terminalColor = _
    rw [showRow_color, statusbarDraw_color]
    exact scrollbackRestore_color v
  · rfl

/-- Back at the bottom, the terminal is what it was. -/
theorem Looking.reset (h : Looking v₀ v) (h₀ : OnScreen v₀ t) : OnScreen (terminalScrollReset v) t := by
  obtain ⟨hreset, hzero⟩ := h.browsing.reset h₀.atBottom
  have hcolor := (terminalScrollReset_color v).trans h.color
  generalize terminalScrollReset v = u at hreset hzero hcolor
  have hterminal := hreset.terminal
  have hrows : ∀ r, u.rowAt r = v₀.rowAt r := by
    intro r
    apply hreset.rows
    rintro ⟨hpos, -⟩
    omega
  obtain ⟨⟨d, hwindow⟩, hcolumn, hbar⟩ := h₀.shows
  have hshown : Window d u t := by
    constructor
    case length => rw [hterminal.viewTop, hwindow.length]
    case row => rw [hterminal.row, hwindow.row]
    case rows =>
      intro k hk
      rw [hterminal.viewTop] at hk
      rw [hrows, hwindow.rows k hk]
    case color => rw [hcolor, hwindow.color]
    case top_le => rw [hterminal.viewTop]; exact hwindow.top_le
    case live => exact hzero
  refine ⟨⟨⟨d, hshown⟩, ?_, ?_⟩, hzero, hreset.unsaved hzero, ?_⟩
  · rw [hterminal.column, hcolumn]
  · rw [hrows, hterminal.viewTop, hterminal.bar, hterminal.column, hterminal.row]
    exact hbar
  · rw [hreset.start, hzero, Nat.sub_zero, hterminal.viewTop]

end HekaOS.Vga
