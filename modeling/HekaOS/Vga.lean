import Mathlib.Data.List.Basic
import Mathlib.Data.BitVec
import Mathlib.Logic.Function.Basic

/-!
# The VGA text driver

`vga.c` keeps 204 rows of 80 cells in video memory and moves a view of 25 rows through them: 24 rows
of text and the status bar below. A newline at the bottom of the view advances the view; at the end
of video memory `vgaRecycle` copies the newest rows back to row 0.
-/

namespace HekaOS.Vga

def vgaX : ℕ := 80
def vgaY : ℕ := 25
def usableRows : ℕ := 24
def vgaTotalRows : ℕ := 204
def vgaMaxViewTop : ℕ := vgaTotalRows - vgaY
def scrollbackRows : ℕ := vgaTotalRows - 2 * vgaY
def scrollbarBarLen : ℕ := 62

abbrev Byte := BitVec 8
abbrev Cell := BitVec 16

/-- What a store into video memory belongs to: the text rows or a bar. -/
inductive Brush | text | bar
  deriving DecidableEq, Repr

/-- A store into video memory, with the value of `vga_view_top` when it was made. -/
structure Write where
  brush : Brush
  viewTop : ℕ
  index : ℕ
  deriving DecidableEq, Repr

/-- The driver's static variables, video memory, the two CRTC registers it programs, and the stores
made into video memory so far. -/
structure Display where
  terminalRow : ℕ
  terminalColumn : ℕ
  terminalColor : Byte
  statusbarColor : Byte
  vgaViewTop : ℕ
  scrollBack : ℕ
  savedBar : ℕ → Cell
  savedBarRow : ℕ
  savedBarValid : Bool
  terminalBuffer : ℕ → Cell
  start : BitVec 16
  cursor : BitVec 16
  writes : List Write

/-- The static variables and video memory before anything was drawn. -/
def Display.zero : Display := ⟨0, 0, 0, 0, 0, 0, fun _ => 0, 0, false, fun _ => 0, 0, 0, []⟩

def vgaEntryColor (fg bg : Byte) : Byte := fg ||| bg <<< 4

def vgaEntry (uc color : Byte) : Cell := uc.setWidth 16 ||| color.setWidth 16 <<< 8

def vgaColorBlack : Byte := 0
def vgaColorLightGrey : Byte := 7

/-- `terminal_buffer[i] = e`. -/
def Display.put (brush : Brush) (i : ℕ) (e : Cell) (v : Display) : Display :=
  { v with
    terminalBuffer := Function.update v.terminalBuffer i e
    writes := v.writes ++ [⟨brush, v.vgaViewTop, i⟩] }

/-- `for (x = 0; x < n; x++) terminal_buffer[base + x] = f (x)`, where `f` may read video memory. -/
def Display.fill (brush : Brush) (base : ℕ) (f : Display → ℕ → Cell) (n : ℕ) (v : Display) : Display :=
  (List.range n).foldl (fun v x => v.put brush (base + x) (f v x)) v

def vgaSetStart (row : ℕ) (v : Display) : Display := { v with start := BitVec.ofNat 16 (row * vgaX) }

def terminalUpdateCursor (v : Display) : Display :=
  if v.scrollBack > 0 then { v with cursor := 0xFFFF }
  else { v with cursor := BitVec.ofNat 16 (v.terminalRow * vgaX + v.terminalColumn) }

/-- The characters of a string literal. -/
def chars (s : String) : List Byte := s.toList.map fun c => BitVec.ofNat 8 c.toNat

def barWriteStr (base : ℕ) : List Byte → ℕ → Display → Display
  | [], _, v => v
  | c :: s, col, v =>
    if col < vgaX then barWriteStr base s (col + 1) (v.put .bar (base + col) (vgaEntry c v.statusbarColor))
    else v

/-- The loop that fills `tmp`, least digit first; ten rounds are enough for a `uint32_t`. -/
def tmpDigits : ℕ → ℕ → List Byte
  | 0, _ => []
  | fuel + 1, n => if n = 0 then [] else BitVec.ofNat 8 (48 + n % 10) :: tmpDigits fuel (n / 10)

/-- A number as the bars write it. -/
def decimal (n : ℕ) : List Byte := if n = 0 then chars "0" else (tmpDigits 10 n).reverse

/-- `right`, the text at the right end of the status bar. -/
def statusRight (column line : ℕ) : List Byte :=
  chars "col:" ++ decimal column ++ chars " row:" ++ decimal line ++ chars " "

/-- The last loop of both bars. -/
def barWriteRight (base : ℕ) (right : List Byte) (v : Display) : Display :=
  v.fill .bar (base + (vgaX - right.length)) (fun v j => vgaEntry (right.getD j 0) v.statusbarColor) right.length

def statusbarDrawAt (row : ℕ) (v : Display) : Display :=
  let base := row * vgaX
  let v := v.fill .bar base (fun v _ => vgaEntry 32 v.statusbarColor) vgaX
  let v := barWriteStr base (chars " VGA text 80x25") 0 v
  barWriteRight base (statusRight v.terminalColumn (v.terminalRow - v.vgaViewTop)) v

/-- The scrollback bar: filled blocks grow from the left with `scroll_back`. -/
def scrollbarDrawAt (row : ℕ) (v : Display) : Display :=
  let base := row * vgaX
  let v := v.fill .bar base (fun v _ => vgaEntry 32 v.statusbarColor) vgaX
  let maxBack := if v.vgaViewTop < scrollbackRows then v.vgaViewTop else scrollbackRows
  let filled := if maxBack > 0 then v.scrollBack * scrollbarBarLen / maxBack else 0
  let filled := if filled > scrollbarBarLen then scrollbarBarLen else filled
  let v := v.put .bar base (vgaEntry 0x5B v.statusbarColor)
  let v := v.fill .bar (base + 1) (fun v i => vgaEntry (if i < filled then 0xDB else 0xB0) v.statusbarColor)
    scrollbarBarLen
  let v := v.put .bar (base + 1 + scrollbarBarLen) (vgaEntry 0x5D v.statusbarColor)
  let pgNow := v.scrollBack / usableRows + 1
  let pgTotal := (maxBack + usableRows - 1) / usableRows
  let pgTotal := if pgTotal = 0 then 1 else pgTotal
  let pgNow := if pgNow > pgTotal then pgTotal else pgNow
  barWriteRight base (chars "pg " ++ decimal pgNow ++ chars "/" ++ decimal pgTotal ++ chars " ") v

def statusbarDraw (v : Display) : Display := statusbarDrawAt (v.vgaViewTop + usableRows) v

def vgaRecycle (v : Display) : Display :=
  let keep := if scrollbackRows > v.vgaViewTop then v.vgaViewTop else scrollbackRows
  let src := v.vgaViewTop - keep
  let total := keep + usableRows
  let v := (List.range total).foldl
    (fun v r => v.fill .text (r * vgaX) (fun v c => v.terminalBuffer ((src + r) * vgaX + c)) vgaX) v
  { v with terminalRow := v.terminalRow - src, vgaViewTop := keep, scrollBack := 0, savedBarValid := false }

def terminalScroll (v : Display) : Display :=
  let v := if v.vgaViewTop = vgaMaxViewTop then vgaRecycle v else v
  let v := { v with vgaViewTop := v.vgaViewTop + 1 }
  let newBottom := v.vgaViewTop + usableRows - 1
  let v := v.fill .text (newBottom * vgaX) (fun v _ => vgaEntry 32 v.terminalColor) vgaX
  let v := if v.scrollBack = 0 then vgaSetStart v.vgaViewTop v else v
  statusbarDraw v

def terminalClear (v : Display) : Display :=
  let v := { v with
    terminalRow := 0, terminalColumn := 0, vgaViewTop := 0, scrollBack := 0, savedBarValid := false
    terminalColor := vgaEntryColor vgaColorLightGrey vgaColorBlack }
  let v := (List.range usableRows).foldl
    (fun v y => v.fill .text (y * vgaX) (fun v _ => vgaEntry 32 v.terminalColor) vgaX) v
  terminalUpdateCursor (statusbarDraw (vgaSetStart 0 v))

def terminalSetcolor (color : Byte) (v : Display) : Display := { v with terminalColor := color }

def terminalPutentryat (c color : Byte) (x y : ℕ) (v : Display) : Display :=
  v.put .text (y * vgaX + x) (vgaEntry c color)

/-- `terminal_row++` and the scroll it may cause, with the column back at 0. -/
def nextRow (v : Display) : Display :=
  let v := { v with terminalColumn := 0, terminalRow := v.terminalRow + 1 }
  if v.terminalRow = v.vgaViewTop + usableRows then terminalScroll v else v

def terminalPutchar (c : Byte) (v : Display) : Display :=
  if c = 10 then statusbarDraw (terminalUpdateCursor (nextRow v))
  else if c = 13 then statusbarDraw (terminalUpdateCursor { v with terminalColumn := 0 })
  else if c = 8 then
    if v.terminalColumn > 0 then
      let v := { v with terminalColumn := v.terminalColumn - 1 }
      let v := terminalPutentryat 32 v.terminalColor v.terminalColumn v.terminalRow v
      statusbarDraw (terminalUpdateCursor v)
    else v
  else
    let v := terminalPutentryat c v.terminalColor v.terminalColumn v.terminalRow v
    let v := { v with terminalColumn := v.terminalColumn + 1 }
    let v := if v.terminalColumn = vgaX then nextRow v else v
    statusbarDraw (terminalUpdateCursor v)

def terminalWrite (data : List Byte) (v : Display) : Display := data.foldl (fun v c => terminalPutchar c v) v

def scrollbackSaveAndDraw (barRow : ℕ) (v : Display) : Display :=
  scrollbarDrawAt barRow
    { v with
      savedBar := fun x => if x < vgaX then v.terminalBuffer (barRow * vgaX + x) else v.savedBar x
      savedBarRow := barRow, savedBarValid := true }

def scrollbackRestore (v : Display) : Display :=
  if v.savedBarValid then
    { v.fill .bar (v.savedBarRow * vgaX) (fun v x => v.savedBar x) vgaX with savedBarValid := false }
  else v

def terminalScrollLines (delta : ℤ) (v : Display) : Display :=
  let maxBack := if v.vgaViewTop < scrollbackRows then v.vgaViewTop else scrollbackRows
  let amount := delta.natAbs
  let v :=
    if delta < 0 then
      { v with scrollBack := if v.scrollBack + amount > maxBack then maxBack else v.scrollBack + amount }
    else if delta > 0 then
      { v with scrollBack := if amount ≥ v.scrollBack then 0 else v.scrollBack - amount }
    else v
  let v := scrollbackRestore v
  let v :=
    if v.scrollBack > 0 then scrollbackSaveAndDraw (v.vgaViewTop - v.scrollBack + usableRows) v
    else statusbarDraw v
  terminalUpdateCursor (vgaSetStart (v.vgaViewTop - v.scrollBack) v)

def terminalScrollReset (v : Display) : Display :=
  if v.scrollBack > 0 then
    let v := scrollbackRestore v
    let v := statusbarDraw { v with scrollBack := 0 }
    terminalUpdateCursor (vgaSetStart v.vgaViewTop v)
  else v

end HekaOS.Vga
