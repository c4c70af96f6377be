import Mathlib.Data.List.DropRight
import HekaOS.VgaRows

/-!
# The VGA driver refines an unbounded terminal

The ideal terminal keeps every row it was ever given, with the cursor on the last of them. The driver
shows the newest of these rows: `Window` places the rows of video memory in the ideal terminal's page,
`dropped` rows below its start, and every `vgaRecycle` drops 25 more.
-/

namespace HekaOS.Vga

/-- The colour `terminal_clear` sets. -/
def clearColor : Byte := vgaEntryColor vgaColorLightGrey vgaColorBlack

/-- A terminal without an end: the rows above the cursor, the cursor's row and its column. -/
structure Terminal where
  above : List Row
  line : Row
  column : Fin vgaX
  color : Byte

def Terminal.cleared : Terminal := ⟨[], blankRow clearColor, ⟨0, by decide⟩, clearColor⟩

/-- The rows of the terminal, filled up with blank rows to a first view. -/
def Terminal.page (t : Terminal) : List Row :=
  t.above ++ t.line :: List.replicate (usableRows - (t.above.length + 1)) (blankRow clearColor)

/-- A new row has the colours of the cleared view as long as it is in the first view, and the current
colours below. -/
def Terminal.newline (t : Terminal) : Terminal :=
  { t with
    above := t.above ++ [t.line]
    line := blankRow (if t.above.length + 1 < usableRows then clearColor else t.color)
    column := ⟨0, by decide⟩ }

/-- Writes at the cursor, without moving it. -/
def Terminal.write (c : Byte) (t : Terminal) : Terminal :=
  { t with line := Function.update t.line t.column (vgaEntry c t.color) }

def Terminal.putchar (c : Byte) (t : Terminal) : Terminal :=
  if c = 10 then t.newline
  else if c = 13 then { t with column := ⟨0, by decide⟩ }
  else if c = 8 then
    if 0 < t.column.val then Terminal.write 32 { t with column := ⟨t.column - 1, by omega⟩ } else t
  else if h : t.column + 1 < vgaX then { t.write c with column := ⟨t.column + 1, h⟩ }
  else (t.write c).newline

/-- What a client does to the terminal after it was cleared. -/
inductive Op | putchar (c : Byte) | setcolor (color : Byte)

def Op.run : Op → Display → Display
  | .putchar c => terminalPutchar c
  | .setcolor color => terminalSetcolor color

def Op.ideal : Op → Terminal → Terminal
  | .putchar c => Terminal.putchar c
  | .setcolor color => fun t => { t with color }

variable {v v' v'' : Display} {t : Terminal} {d : ℕ}

/-! ### The stores -/

/-- The text is stored into the rows of the view and above, the status bar below the view. -/
def Write.Sound (w : Write) : Prop :=
  w.viewTop ≤ vgaMaxViewTop ∧
    match w.brush with
    | .text => w.index / vgaX < w.viewTop + usableRows
    | .bar => w.index / vgaX = w.viewTop + usableRows

theorem Write.Sound.index_lt {w : Write} (h : w.Sound) : w.index < vgaTotalRows * vgaX := by
  obtain ⟨htop, hrow⟩ := h
  have hlt : w.index / vgaX < vgaTotalRows := by
    simp only [vgaMaxViewTop, vgaY, vgaTotalRows] at *
    cases hb : w.brush <;> simp only [hb, usableRows] at hrow <;> omega
  exact (Nat.div_lt_iff_lt_mul (by decide)).mp hlt

/-- Between `v` and `v'` only sound stores were made. -/
def Logged (v v' : Display) : Prop := ∃ ws, v'.writes = v.writes ++ ws ∧ ∀ w ∈ ws, w.Sound

theorem Logged.of_eq (h : v'.writes = v.writes) : Logged v v' := ⟨[], by simp [h], by simp⟩

theorem Logged.trans (h : Logged v v') (h' : Logged v' v'') : Logged v v'' := by
  obtain ⟨ws, hws, hall⟩ := h
  obtain ⟨ws', hws', hall'⟩ := h'
  refine ⟨ws ++ ws', by rw [hws', hws, List.append_assoc], fun w hw => ?_⟩
  rcases List.mem_append.mp hw with hw | hw
  · exact hall w hw
  · exact hall' w hw

theorem Drawn.logged {r : ℕ} (h : Drawn .text r v v') (htop : v.vgaViewTop ≤ vgaMaxViewTop)
    (hr : r < v.vgaViewTop + usableRows) : Logged v v' := by
  obtain ⟨ws, hws, hall⟩ := h.writes
  refine ⟨ws, hws, fun w hw => ?_⟩
  obtain ⟨hbrush, hview, hrow⟩ := hall w hw
  rw [Write.Sound, hbrush, hview, hrow]
  exact ⟨htop, hr⟩

theorem DrawnRows.logged {n : ℕ} (h : DrawnRows .text n v v') (htop : v.vgaViewTop ≤ vgaMaxViewTop)
    (hn : n ≤ v.vgaViewTop + usableRows) : Logged v v' := by
  obtain ⟨ws, hws, hall⟩ := h.writes
  refine ⟨ws, hws, fun w hw => ?_⟩
  obtain ⟨hbrush, hview, hrow⟩ := hall w hw
  rw [Write.Sound, hbrush, hview]
  exact ⟨htop, by omega⟩

theorem Logged.statusbarDraw (htop : v.vgaViewTop ≤ vgaMaxViewTop) : Logged v (statusbarDraw v) := by
  obtain ⟨ws, hws, hall⟩ := (Drawn.statusbarDrawAt (r := v.vgaViewTop + usableRows) (v := v)).writes
  refine ⟨ws, hws, fun w hw => ?_⟩
  obtain ⟨hbrush, hview, hrow⟩ := hall w hw
  rw [Write.Sound, hbrush, hview, hrow]
  exact ⟨htop, rfl⟩

/-! ### Scrolling -/

/-- `v'` is `v` with its view one row further down over the same text, `src` rows of it forgotten. -/
structure Scrolled (src : ℕ) (v v' : Display) : Prop where
  viewTop : v'.vgaViewTop + src = v.vgaViewTop + 1
  top_le : v'.vgaViewTop ≤ vgaMaxViewTop
  row : v'.terminalRow + src = v.terminalRow
  column : v'.terminalColumn = v.terminalColumn
  color : v'.terminalColor = v.terminalColor
  live : v'.scrollBack = 0
  rows : ∀ k, k + 1 < v'.vgaViewTop + usableRows → v'.rowAt k = v.rowAt (src + k)
  bottom : ∀ k, k + 1 = v'.vgaViewTop + usableRows → v'.rowAt k = blankRow v.terminalColor
  logged : Logged v v'

/-- What `vgaRecycle` does at the end of video memory. -/
structure Recycled (v v' : Display) : Prop where
  viewTop : v'.vgaViewTop = scrollbackRows
  row : v'.terminalRow = v.terminalRow - (vgaMaxViewTop - scrollbackRows)
  column : v'.terminalColumn = v.terminalColumn
  color : v'.terminalColor = v.terminalColor
  live : v'.scrollBack = 0
  rows : ∀ k < scrollbackRows + usableRows, v'.rowAt k = v.rowAt (vgaMaxViewTop - scrollbackRows + k)
  logged : Logged v v'

/-- The loops of `vgaRecycle`. -/
theorem recycle_loop (v : Display) : ∃ copied,
    (List.range (scrollbackRows + usableRows)).foldl (fun v r => v.fill .text (r * vgaX)
      (fun v c => v.terminalBuffer ((vgaMaxViewTop - scrollbackRows + r) * vgaX + c)) vgaX) v = copied ∧
    DrawnRows .text (scrollbackRows + usableRows) v copied ∧
    ∀ k < scrollbackRows + usableRows, copied.rowAt k = v.rowAt (vgaMaxViewTop - scrollbackRows + k) := by
  refine ⟨_, rfl, ?_⟩
  apply rows_loop
  intro r _ v' hv'
  -- the row read is below every row written so far
  have hsrc : vgaMaxViewTop - scrollbackRows + r ≠ r := by
    simp only [vgaMaxViewTop, scrollbackRows, vgaTotalRows, vgaY]
    omega
  rw [copy_row hsrc]
  exact hv'.rows _ (by omega)

theorem vgaRecycle_recycled (htop : v.vgaViewTop = vgaMaxViewTop) : Recycled v (vgaRecycle v) := by
  obtain ⟨copied, hcopied, hdrawn, hrows⟩ := recycle_loop v
  have hkeep : (if scrollbackRows > vgaMaxViewTop then vgaMaxViewTop else scrollbackRows) = scrollbackRows := by
    decide
  have heq : vgaRecycle v = { copied with
      terminalRow := copied.terminalRow - (vgaMaxViewTop - scrollbackRows), vgaViewTop := scrollbackRows
      scrollBack := 0, savedBarValid := false } := by
    simp only [vgaRecycle, htop, hkeep, hcopied]
  have hsame := hdrawn.same
  rw [heq]
  refine ⟨rfl, ?_, ?_, ?_, rfl, hrows, ?_⟩
  · rw [hsame]
  · rw [hsame]
  · rw [hsame]
  · apply hdrawn.logged
    · rw [htop]
    · rw [htop]
      decide

theorem statusbarDraw_same (v : Display) :
    statusbarDraw v = { v with terminalBuffer := (statusbarDraw v).terminalBuffer, writes := (statusbarDraw v).writes } :=
  Drawn.statusbarDrawAt.same

theorem statusbarDraw_rowAt {k : ℕ} (h : k < v.vgaViewTop + usableRows) : (statusbarDraw v).rowAt k = v.rowAt k :=
  Drawn.statusbarDrawAt.rows k (by omega)

/-- The loop that blanks a text row. -/
theorem blank_loop (r : ℕ) (v : Display) : ∃ blank,
    v.fill .text (r * vgaX) (fun v _ => vgaEntry 32 v.terminalColor) vgaX = blank ∧
      Drawn .text r v blank ∧ blank.rowAt r = blankRow v.terminalColor :=
  ⟨_, rfl, .fillRow _, blank_row fun v' hv' => by rw [hv'.same]⟩

theorem terminalScroll_of_lt (htop : v.vgaViewTop < vgaMaxViewTop) (hlive : v.scrollBack = 0) :
    Scrolled 0 v (terminalScroll v) := by
  obtain ⟨blank, hblank, hdrawn, hrow⟩ :=
    blank_loop (v.vgaViewTop + usableRows) { v with vgaViewTop := v.vgaViewTop + 1 }
  have hsame := hdrawn.same
  have hview : blank.vgaViewTop = v.vgaViewTop + 1 := by rw [hsame]
  have hscroll : blank.scrollBack = 0 := by
    rw [hsame]
    exact hlive
  have heq : terminalScroll v = statusbarDraw (vgaSetStart (v.vgaViewTop + 1) blank) := by
    have hbottom : v.vgaViewTop + 1 + usableRows - 1 = v.vgaViewTop + usableRows := by omega
    simp only [terminalScroll, if_neg htop.ne, hbottom, hblank, hscroll, hview, if_true]
  obtain ⟨started, hstarted⟩ : ∃ started, vgaSetStart (v.vgaViewTop + 1) blank = started := ⟨_, rfl⟩
  have hstart : started.vgaViewTop = v.vgaViewTop + 1 := by
    rw [← hstarted]
    exact hview
  have hdraw := statusbarDraw_same started
  have htop' : (statusbarDraw started).vgaViewTop = v.vgaViewTop + 1 := by
    rw [hdraw]
    exact hstart
  have hrows : ∀ k < v.vgaViewTop + 1 + usableRows, (statusbarDraw started).rowAt k = blank.rowAt k := by
    intro k hk
    rw [statusbarDraw_rowAt (by omega), ← hstarted]
    rfl
  rw [heq, hstarted]
  constructor
  case viewTop =>
    rw [Nat.add_zero]
    exact htop'
  case top_le => omega
  case row => rw [hdraw, ← hstarted]; simp only [vgaSetStart]; rw [hsame]; rfl
  case column => rw [hdraw, ← hstarted]; simp only [vgaSetStart]; rw [hsame]
  case color => rw [hdraw, ← hstarted]; simp only [vgaSetStart]; rw [hsame]
  case live => rw [hdraw, ← hstarted]; exact hscroll
  case rows =>
    intro k hk
    rw [htop'] at hk
    rw [hrows k (by omega), hdrawn.rows k (by omega), Nat.zero_add]
    rfl
  case bottom =>
    intro k hk
    rw [htop'] at hk
    obtain rfl : k = v.vgaViewTop + usableRows := by omega
    rw [hrows _ (by omega), hrow]
  case logged =>
    have hfill : Logged v blank := by
      have hlog := hdrawn.logged htop (by simp only; omega)
      exact hlog
    have hbar := Logged.statusbarDraw (v := started) (by omega)
    have hset : Logged blank started := .of_eq (by rw [← hstarted]; rfl)
    exact hfill.trans (hset.trans hbar)

theorem terminalScroll_recycle (htop : v.vgaViewTop = vgaMaxViewTop) :
    terminalScroll v = terminalScroll (vgaRecycle v) := by
  have hview : (vgaRecycle v).vgaViewTop ≠ vgaMaxViewTop := by
    rw [(vgaRecycle_recycled htop).viewTop]
    decide
  simp only [terminalScroll, if_pos htop, if_neg hview]

theorem terminalScroll_scrolled (htop : v.vgaViewTop ≤ vgaMaxViewTop) (hlive : v.scrollBack = 0)
    (hrow : v.vgaViewTop ≤ v.terminalRow) : ∃ src, Scrolled src v (terminalScroll v) := by
  by_cases hlt : v.vgaViewTop < vgaMaxViewTop
  · exact ⟨0, terminalScroll_of_lt hlt hlive⟩
  · have hmax : v.vgaViewTop = vgaMaxViewTop := by omega
    have hrec := vgaRecycle_recycled hmax
    rw [terminalScroll_recycle hmax]
    generalize vgaRecycle v = v' at hrec
    have hconst : scrollbackRows ≤ vgaMaxViewTop ∧ scrollbackRows < vgaMaxViewTop := by decide
    have hview := hrec.viewTop
    have hscroll := terminalScroll_of_lt (v := v') (by omega) hrec.live
    have hview' := hscroll.viewTop
    refine ⟨vgaMaxViewTop - scrollbackRows, ?_⟩
    constructor
    case viewTop => omega
    case top_le => exact hscroll.top_le
    case row =>
      have hrow' := hrec.row
      have hrow'' := hscroll.row
      omega
    case column => rw [hscroll.column, hrec.column]
    case color => rw [hscroll.color, hrec.color]
    case live => exact hscroll.live
    case rows =>
      intro k hk
      rw [hscroll.rows k hk, Nat.zero_add, hrec.rows k (by omega)]
    case bottom =>
      intro k hk
      rw [hscroll.bottom k hk, hrec.color]
    case logged => exact hrec.logged.trans hscroll.logged

/-! ### The window on the ideal terminal -/

/-- Video memory up to the end of the view is the ideal terminal's page from row `d` on. -/
structure Window (d : ℕ) (v : Display) (t : Terminal) : Prop where
  length : t.page.length = d + (v.vgaViewTop + usableRows)
  row : t.above.length = d + v.terminalRow
  rows : ∀ k < v.vgaViewTop + usableRows, t.page[d + k]? = some (v.rowAt k)
  color : v.terminalColor = t.color
  top_le : v.vgaViewTop ≤ vgaMaxViewTop
  live : v.scrollBack = 0

theorem page_length (t : Terminal) : t.page.length = max usableRows (t.above.length + 1) := by
  simp only [Terminal.page, List.length_append, List.length_cons, List.length_replicate]
  omega

theorem Window.view (h : Window d v t) :
    v.vgaViewTop ≤ v.terminalRow ∧ v.terminalRow < v.vgaViewTop + usableRows := by
  have hlength := h.length
  have hrow := h.row
  have hpos : 0 < usableRows := by decide
  rw [page_length] at hlength
  omega

/-- As long as the first view has room, a newline only moves the cursor. -/
theorem page_newline_of_lt (h : t.above.length + 1 < usableRows) : t.newline.page = t.page := by
  have hrest : usableRows - (t.above.length + 1) = usableRows - (t.above.length + 1 + 1) + 1 := by omega
  simp only [Terminal.page, Terminal.newline, if_pos h, List.length_append, List.length_singleton, hrest,
    List.replicate_succ, List.append_assoc, List.singleton_append]

theorem page_newline_of_ge (h : usableRows ≤ t.above.length + 1) :
    t.newline.page = t.page ++ [blankRow t.color] := by
  have hnone : usableRows - (t.above.length + 1) = 0 := by omega
  have hnone' : usableRows - (t.above.length + 1 + 1) = 0 := by omega
  simp only [Terminal.page, Terminal.newline, if_neg (Nat.not_lt.mpr h), List.length_append,
    List.length_singleton, hnone, hnone', List.replicate_zero]

theorem nextRow_of_lt (h : Window d v t) (hroom : t.above.length + 1 < usableRows) :
    Window d (nextRow v) t.newline ∧ Logged v (nextRow v) ∧ (nextRow v).terminalColumn = 0 := by
  have hlength := h.length
  have hrow := h.row
  have hview := h.view
  have hnext : nextRow v = { v with terminalColumn := 0, terminalRow := v.terminalRow + 1 } := by
    rw [page_length] at hlength
    unfold nextRow
    rw [if_neg]
    show ¬v.terminalRow + 1 = v.vgaViewTop + usableRows
    omega
  rw [hnext]
  refine ⟨?_, .of_eq rfl, rfl⟩
  constructor
  case length => rw [page_newline_of_lt hroom, hlength]
  case row =>
    simp only [Terminal.newline, List.length_append, List.length_singleton]
    omega
  case rows =>
    rw [page_newline_of_lt hroom]
    exact h.rows
  case color => exact h.color
  case top_le => exact h.top_le
  case live => exact h.live

theorem nextRow_of_ge (h : Window d v t) (hfull : usableRows ≤ t.above.length + 1) :
    (∃ d', Window d' (nextRow v) t.newline) ∧ Logged v (nextRow v) ∧ (nextRow v).terminalColumn = 0 := by
  have hlength := h.length
  have hrow := h.row
  have hview := h.view
  obtain ⟨moved, hmoved⟩ :
      ∃ moved, moved = { v with terminalColumn := 0, terminalRow := v.terminalRow + 1 } := ⟨_, rfl⟩
  have hnext : nextRow v = terminalScroll moved := by
    rw [page_length] at hlength
    unfold nextRow
    rw [← hmoved, if_pos]
    rw [hmoved]
    show v.terminalRow + 1 = v.vgaViewTop + usableRows
    omega
  have hscroll : ∃ src, Scrolled src moved (terminalScroll moved) := by
    apply terminalScroll_scrolled
    · rw [hmoved]; exact h.top_le
    · rw [hmoved]; exact h.live
    · rw [hmoved]; show v.vgaViewTop ≤ v.terminalRow + 1; omega
  obtain ⟨src, hscroll⟩ := hscroll
  rw [hnext]
  generalize terminalScroll moved = v' at hscroll
  subst hmoved
  have hrow' : v'.terminalRow + src = v.terminalRow + 1 := hscroll.row
  have hview' : v'.vgaViewTop + src = v.vgaViewTop + 1 := hscroll.viewTop
  refine ⟨⟨d + src, ?_⟩, ?_, hscroll.column⟩
  · constructor
    case length =>
      rw [page_newline_of_ge hfull, List.length_append, List.length_singleton]
      omega
    case row =>
      simp only [Terminal.newline, List.length_append, List.length_singleton]
      omega
    case rows =>
      intro k hk
      rw [page_newline_of_ge hfull]
      by_cases hlast : k + 1 = v'.vgaViewTop + usableRows
      · rw [hscroll.bottom k hlast, List.getElem?_append_right (by omega), hlength]
        have hidx : d + src + k - (d + (v.vgaViewTop + usableRows)) = 0 := by omega
        rw [hidx, List.getElem?_cons_zero]
        show some (blankRow t.color) = some (blankRow v.terminalColor)
        rw [h.color]
      · rw [hscroll.rows k (by omega), List.getElem?_append_left (by omega), Nat.add_assoc]
        exact h.rows (src + k) (by omega)
    case color => exact hscroll.color.trans h.color
    case top_le => exact hscroll.top_le
    case live => exact hscroll.live
  · exact Logged.trans (.of_eq rfl) hscroll.logged

/-- A newline, with the scroll it may cause. -/
theorem Window.nextRow (h : Window d v t) :
    (∃ d', Window d' (Vga.nextRow v) t.newline) ∧ Logged v (Vga.nextRow v) ∧ (Vga.nextRow v).terminalColumn = 0 := by
  by_cases hroom : t.above.length + 1 < usableRows
  · obtain ⟨hwindow, hrest⟩ := nextRow_of_lt h hroom
    exact ⟨⟨d, hwindow⟩, hrest⟩
  · exact nextRow_of_ge h (by omega)

theorem page_line (t : Terminal) : t.page[t.above.length]? = some t.line := by
  simp [Terminal.page]

theorem page_getElem?_of_line {line : Row} {k : ℕ} (hk : k ≠ t.above.length) :
    { t with line }.page[k]? = t.page[k]? := by
  simp only [Terminal.page, List.getElem?_append]
  split
  · rfl
  · have hpos : k - t.above.length = (k - t.above.length - 1) + 1 := by omega
    rw [hpos, List.getElem?_cons_succ, List.getElem?_cons_succ]

/-- A cell written at the cursor. -/
theorem Window.write (h : Window d v t) {c : Byte} (hcolumn : v.terminalColumn = t.column) :
    Window d (terminalPutentryat c v.terminalColor v.terminalColumn v.terminalRow v) (t.write c) ∧
      Logged v (terminalPutentryat c v.terminalColor v.terminalColumn v.terminalRow v) := by
  have hview := h.view
  have hrow := h.row
  rw [terminalPutentryat, hcolumn, h.color]
  have hdrawn : Drawn .text v.terminalRow v (v.put .text (v.terminalRow * vgaX + t.column) (vgaEntry c t.color)) :=
    .put t.column.isLt _
  refine ⟨?_, hdrawn.logged h.top_le (by omega)⟩
  constructor
  case length =>
    have hlength := h.length
    rw [page_length] at hlength ⊢
    exact hlength
  case row => exact hrow
  case rows =>
    intro k hk
    by_cases hline : k = v.terminalRow
    · subst hline
      have hold := h.rows v.terminalRow hview.2
      rw [← hrow, page_line, Option.some_inj] at hold
      rw [put_rowAt t.column.isLt, ← hold, ← hrow]
      exact page_line (t.write c)
    · rw [hdrawn.rows k hline, ← h.rows k hk]
      exact page_getElem?_of_line (by omega)
  case color => exact h.color
  case top_le => exact h.top_le
  case live => exact h.live

/-! ### One call -/

/-- The driver shows the ideal terminal, with the status bar below the view. -/
structure Shows (v : Display) (t : Terminal) : Prop where
  window : ∃ d, Window d v t
  column : v.terminalColumn = t.column
  bar : v.rowAt (v.vgaViewTop + usableRows) =
    statusRow v.statusbarColor v.terminalColumn (v.terminalRow - v.vgaViewTop)

theorem terminalUpdateCursor_same (v : Display) :
    terminalUpdateCursor v = { v with cursor := (terminalUpdateCursor v).cursor } := by
  unfold terminalUpdateCursor
  split <;> rfl

theorem Window.cursor (h : Window d v t) : Window d (terminalUpdateCursor v) t := by
  rw [terminalUpdateCursor_same]
  exact ⟨h.length, h.row, h.rows, h.color, h.top_le, h.live⟩

theorem Shows.cursor (h : Shows v t) : Shows (terminalUpdateCursor v) t := by
  obtain ⟨⟨d, hwindow⟩, hcolumn, hbar⟩ := h
  refine ⟨⟨d, hwindow.cursor⟩, ?_, ?_⟩
  · rw [terminalUpdateCursor_same]
    exact hcolumn
  · rw [terminalUpdateCursor_same]
    exact hbar

theorem Window.statusbarDraw (h : Window d v t) (hcolumn : v.terminalColumn = t.column) :
    Shows (statusbarDraw v) t := by
  have hdraw := statusbarDraw_same v
  have hbar : (Vga.statusbarDraw v).rowAt (v.vgaViewTop + usableRows) = _ := statusbarDrawAt_rowAt _ v
  have hrows : ∀ k < v.vgaViewTop + usableRows, (Vga.statusbarDraw v).rowAt k = v.rowAt k :=
    fun k hk => statusbarDraw_rowAt hk
  generalize Vga.statusbarDraw v = v' at *
  have htop : v'.vgaViewTop = v.vgaViewTop := by rw [hdraw]
  have hline : v'.terminalRow = v.terminalRow := by rw [hdraw]
  have hcol : v'.terminalColumn = v.terminalColumn := by rw [hdraw]
  refine ⟨⟨d, ?_⟩, hcol.trans hcolumn, ?_⟩
  · constructor
    case length => rw [htop, h.length]
    case row => rw [hline, h.row]
    case rows =>
      intro k hk
      rw [htop] at hk
      rw [h.rows k hk, hrows k hk]
    case color => rw [hdraw]; exact h.color
    case top_le => rw [htop]; exact h.top_le
    case live => rw [hdraw]; exact h.live
  · have hcolor : v'.statusbarColor = v.statusbarColor := by rw [hdraw]
    rw [htop, hline, hcol, hcolor, hbar]

/-- Every call that changes something ends by placing the cursor and drawing the bar. -/
theorem Window.shows (h : Window d v t) (hcolumn : v.terminalColumn = t.column) :
    Shows (Vga.statusbarDraw (terminalUpdateCursor v)) t ∧
      Logged v (Vga.statusbarDraw (terminalUpdateCursor v)) := by
  have hsame := terminalUpdateCursor_same v
  have hplaced : (terminalUpdateCursor v).terminalColumn = t.column := by
    rw [hsame]
    exact hcolumn
  have hlog : Logged (terminalUpdateCursor v) (Vga.statusbarDraw (terminalUpdateCursor v)) :=
    .statusbarDraw h.cursor.top_le
  exact ⟨h.cursor.statusbarDraw hplaced, Logged.trans (.of_eq (by rw [hsame])) hlog⟩

theorem terminalPutchar_shows (h : Shows v t) (c : Byte) :
    Shows (terminalPutchar c v) (t.putchar c) ∧ Logged v (terminalPutchar c v) := by
  obtain ⟨⟨d, hwindow⟩, hcolumn, hbar⟩ := h
  unfold terminalPutchar Terminal.putchar
  by_cases hnl : c = 10
  · obtain ⟨⟨d', hnext⟩, hlog, hzero⟩ := hwindow.nextRow
    obtain ⟨hshows, hlog'⟩ := hnext.shows hzero
    simp only [if_pos hnl]
    exact ⟨hshows, hlog.trans hlog'⟩
  simp only [if_neg hnl]
  by_cases hcr : c = 13
  · have hback : Window d { v with terminalColumn := 0 } { t with column := ⟨0, by decide⟩ } :=
      ⟨hwindow.length, hwindow.row, hwindow.rows, hwindow.color, hwindow.top_le, hwindow.live⟩
    obtain ⟨hshows, hlog⟩ := hback.shows rfl
    simp only [if_pos hcr]
    exact ⟨hshows, hlog⟩
  simp only [if_neg hcr]
  by_cases hbs : c = 8
  · simp only [if_pos hbs, hcolumn]
    by_cases hpos : 0 < t.column.val
    · have hback : Window d { v with terminalColumn := t.column - 1 } { t with column := ⟨t.column - 1, by omega⟩ } :=
        ⟨hwindow.length, hwindow.row, hwindow.rows, hwindow.color, hwindow.top_le, hwindow.live⟩
      obtain ⟨hwrite, hlog⟩ := hback.write (c := 32) rfl
      obtain ⟨hshows, hlog'⟩ := hwrite.shows rfl
      simp only [if_pos hpos, gt_iff_lt]
      exact ⟨hshows, Logged.trans hlog hlog'⟩
    · simp only [if_neg hpos, gt_iff_lt]
      exact ⟨⟨⟨d, hwindow⟩, hcolumn, hbar⟩, .of_eq rfl⟩
  simp only [if_neg hbs]
  obtain ⟨hwrite, hlog⟩ := hwindow.write (c := c) hcolumn
  generalize hput : terminalPutentryat c v.terminalColor v.terminalColumn v.terminalRow v = put at *
  have hput' : put.terminalColumn = t.column := by
    rw [← hput]
    exact hcolumn
  by_cases hroom : t.column + 1 < vgaX
  · have hmove : Window d { put with terminalColumn := put.terminalColumn + 1 }
        { t.write c with column := ⟨t.column + 1, hroom⟩ } :=
      ⟨hwrite.length, hwrite.row, hwrite.rows, hwrite.color, hwrite.top_le, hwrite.live⟩
    have hne : put.terminalColumn + 1 ≠ vgaX := by omega
    obtain ⟨hshows, hlog'⟩ := hmove.shows (by simp only [hput'])
    simp only [dif_pos hroom, if_neg hne]
    exact ⟨hshows, hlog.trans hlog'⟩
  · have hmove : Window d { put with terminalColumn := put.terminalColumn + 1 } (t.write c) :=
      ⟨hwrite.length, hwrite.row, hwrite.rows, hwrite.color, hwrite.top_le, hwrite.live⟩
    have heq : put.terminalColumn + 1 = vgaX := by
      have hlt := t.column.isLt
      omega
    obtain ⟨⟨d', hnext⟩, hlog', hzero⟩ := hmove.nextRow
    obtain ⟨hshows, hlog''⟩ := hnext.shows hzero
    simp only [dif_neg hroom, if_pos heq]
    exact ⟨hshows, hlog.trans (Logged.trans hlog' hlog'')⟩

theorem Op.shows (op : Op) (h : Shows v t) : Shows (op.run v) (op.ideal t) ∧ Logged v (op.run v) := by
  cases op with
  | putchar c => exact terminalPutchar_shows h c
  | setcolor color =>
    obtain ⟨⟨d, hwindow⟩, hcolumn, hbar⟩ := h
    exact ⟨⟨⟨d, hwindow.length, hwindow.row, hwindow.rows, rfl, hwindow.top_le, hwindow.live⟩, hcolumn, hbar⟩,
      .of_eq rfl⟩

theorem run_shows (ops : List Op) (h : Shows v t) :
    Shows (ops.foldl (fun v op => op.run v) v) (ops.foldl (fun t op => op.ideal t) t) ∧
      Logged v (ops.foldl (fun v op => op.run v) v) := by
  induction ops generalizing v t with
  | nil => exact ⟨h, .of_eq rfl⟩
  | cons op ops ih =>
    obtain ⟨hstep, hlog⟩ := op.shows h
    obtain ⟨hrun, hlog'⟩ := ih hstep
    exact ⟨hrun, hlog.trans hlog'⟩

/-! ### Clearing -/

/-- The loops of `terminalClear`. -/
theorem clear_loop (v : Display) : ∃ blank,
    (List.range usableRows).foldl
      (fun v y => v.fill .text (y * vgaX) (fun v _ => vgaEntry 32 v.terminalColor) vgaX) v = blank ∧
    DrawnRows .text usableRows v blank ∧ ∀ k < usableRows, blank.rowAt k = blankRow v.terminalColor := by
  refine ⟨_, rfl, ?_⟩
  apply rows_loop
  intro r _ v' hv'
  obtain ⟨_, hblank, _, hrow⟩ := blank_loop r v'
  rw [hblank, hrow, hv'.same]

theorem cleared_page : Terminal.cleared.page = List.replicate usableRows (blankRow clearColor) := rfl

theorem terminalClear_shows (v : Display) :
    Shows (terminalClear v) .cleared ∧ Logged v (terminalClear v) := by
  obtain ⟨reset, hreset⟩ : ∃ reset : Display, reset = { v with
    terminalRow := 0, terminalColumn := 0, vgaViewTop := 0, scrollBack := 0, savedBarValid := false
    terminalColor := vgaEntryColor vgaColorLightGrey vgaColorBlack } := ⟨_, rfl⟩
  obtain ⟨blank, hblank, hdrawn, hrows⟩ := clear_loop reset
  have heq : terminalClear v = terminalUpdateCursor (statusbarDraw (vgaSetStart 0 blank)) := by
    simp only [terminalClear, ← hreset, hblank]
  have hsame := hdrawn.same
  have hrow : blank.terminalRow = 0 ∧ blank.terminalColumn = 0 ∧ blank.vgaViewTop = 0 ∧ blank.scrollBack = 0 ∧
      blank.terminalColor = clearColor := by
    rw [hsame, hreset]
    exact ⟨rfl, rfl, rfl, rfl, rfl⟩
  obtain ⟨hline, hcolumn, htop, hlive, hcolor⟩ := hrow
  have hwindow : Window 0 (vgaSetStart 0 blank) .cleared := by
    constructor
    case length => simp [vgaSetStart, htop, cleared_page]
    case row => simp [vgaSetStart, hline, Terminal.cleared]
    case rows =>
      intro k hk
      have hk' : k < usableRows := by simpa [vgaSetStart, htop] using hk
      have hblankrow : (vgaSetStart 0 blank).rowAt k = blankRow clearColor := by
        have hk'' := hrows k hk'
        rw [hreset] at hk''
        exact hk''
      rw [cleared_page, Nat.zero_add, List.getElem?_replicate, if_pos hk', hblankrow]
    case color => exact hcolor
    case top_le => simp [vgaSetStart, htop]
    case live => exact hlive
  have hlog : Logged reset blank := hdrawn.logged (by rw [hreset]; exact Nat.zero_le _) (by omega)
  have hlog' : Logged (vgaSetStart 0 blank) (statusbarDraw (vgaSetStart 0 blank)) :=
    .statusbarDraw hwindow.top_le
  rw [heq]
  refine ⟨(hwindow.statusbarDraw hcolumn).cursor, ?_⟩
  have hstart : Logged v (vgaSetStart 0 blank) := by
    have hreset' : Logged v reset := .of_eq (by rw [hreset])
    exact hreset'.trans hlog
  have hend : Logged (statusbarDraw (vgaSetStart 0 blank)) (terminalUpdateCursor (statusbarDraw (vgaSetStart 0 blank))) :=
    .of_eq (by rw [terminalUpdateCursor_same])
  exact hstart.trans (hlog'.trans hend)

/-! ### The refinement -/

theorem window_rtake (h : Window d v t) :
    (List.range (v.vgaViewTop + usableRows)).map v.rowAt = t.page.rtake (v.vgaViewTop + usableRows) := by
  have hlength := h.length
  rw [List.rtake, hlength, Nat.add_sub_cancel]
  apply List.ext_getElem?
  intro k
  rw [List.getElem?_drop]
  by_cases hk : k < v.vgaViewTop + usableRows
  · rw [h.rows k hk]
    simp [hk]
  · rw [List.getElem?_eq_none (by simp; omega), List.getElem?_eq_none (by omega)]

/-- After `terminal_clear`, whatever is printed in whatever colours, the driver shows the newest rows of
the ideal terminal and stores nothing outside its 204 rows. -/
theorem putchar_refines_terminal (v₀ : Display) (ops : List Op) :
    let v := ops.foldl (fun v op => op.run v) (terminalClear v₀)
    let t := ops.foldl (fun t op => op.ideal t) Terminal.cleared
    (v.terminalColumn < vgaX ∧ v.vgaViewTop ≤ vgaMaxViewTop ∧
      v.vgaViewTop ≤ v.terminalRow ∧ v.terminalRow ≤ v.vgaViewTop + 23) ∧
    (∃ ws, v.writes = v₀.writes ++ ws ∧ ∀ w ∈ ws, w.index < 204 * 80 ∧ w.Sound) ∧
    (v.terminalColumn = t.column ∧ v.terminalRow + t.page.length = t.above.length + (v.vgaViewTop + 24)) ∧
    (v.vgaViewTop + 24 ≤ t.page.length ∧
      (List.range (v.vgaViewTop + 24)).map v.rowAt = t.page.rtake (v.vgaViewTop + 24)) ∧
    v.rowAt (v.vgaViewTop + 24) = statusRow v.statusbarColor v.terminalColumn (v.terminalRow - v.vgaViewTop) := by
  intro v t
  obtain ⟨hclear, hlog₀⟩ := terminalClear_shows v₀
  obtain ⟨hshows, hlog⟩ : Shows v t ∧ Logged (terminalClear v₀) v := run_shows ops hclear
  obtain ⟨⟨d, hwindow⟩, hcolumn, hbar⟩ := hshows
  obtain ⟨ws, hws, hsound⟩ := hlog₀.trans hlog
  have hview := hwindow.view
  have hlength := hwindow.length
  have hrow := hwindow.row
  have husable : usableRows = 24 := rfl
  refine ⟨⟨?_, hwindow.top_le, hview.1, ?_⟩, ⟨ws, hws, ?_⟩, ⟨hcolumn, ?_⟩, ⟨?_, window_rtake hwindow⟩, hbar⟩
  · rw [hcolumn]
    exact t.column.isLt
  · omega
  · intro w hw
    exact ⟨(hsound w hw).index_lt, hsound w hw⟩
  · omega
  · omega

end HekaOS.Vga
