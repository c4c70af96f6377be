import HekaOS.NumberOutput
import HekaOS.Painting
import HekaOS.ShellLine
import HekaOS.TaskModel

/-!
# The process monitor

`eyeproc` draws the tasks as a grid of 4 by 3 cells a page, with two bars below, straight into video memory.
It polls the keyboard itself: the arrows turn the pages, escape goes back to the shell.
-/

namespace HekaOS.Vga
open Tasks Painting

def vgaColorGreen : Byte := 2
def vgaColorDarkGrey : Byte := 8
def vgaColorLightGreen : Byte := 10
def vgaColorLightCyan : Byte := 11
def vgaColorLightBrown : Byte := 14
def vgaColorWhite : Byte := 15

def epCols : ℕ := 4
def epRows : ℕ := 3
def epCellW : ℕ := 20
def epCellH : ℕ := 7
def epInnerW : ℕ := 18

/-- `EP_PER_PAGE` -/
def epPerPage : ℕ := epCols * epRows

def epPut (x y : ℕ) (c color : Byte) (v : Display) : Display := terminalPutentryat c color x y v

def epPuts (x y : ℕ) (s : List Byte) (color : Byte) (width : ℕ) (v : Display) : Display :=
  let i := min s.length width
  let v := (List.range i).foldl (fun v i => terminalPutentryat (s.getD i 0) color (x + i) y v) v
  (List.range (width - i)).foldl (fun v k => terminalPutentryat 32 color (x + (i + k)) y v) v

/-- The characters that `ep_fmt_uint` puts into a buffer. -/
def epUint (v : BitVec 32) : List Byte :=
  match epFmtUint (fun _ => 0) v fun _ => 0 with
  | some (buf, n) => (List.range n).map buf
  | none => []

/-- The characters that `ep_fmt_hex8` puts into a buffer: the rounds from 7 down to 0. -/
def epFmtHex8 (v : BitVec 32) : List Byte :=
  ((List.range 8).foldl (fun (r : List Byte × BitVec 32) _ => (hexChar (r.2 &&& 0xF).toNat :: r.1, r.2 >>> 4)) ([], v)).1

def epStateName : TaskState → List Byte
  | .runnable => chars "RUNNABLE"
  | .running => chars "RUNNING "
  | .blocked => chars "BLOCKED "
  | .zombie => chars "ZOMBIE  "
  | .stopped => chars "STOPPED "

def epStateColor : TaskState → Byte
  | .runnable => vgaEntryColor vgaColorLightCyan vgaColorBlack
  | .running => vgaEntryColor vgaColorLightGreen vgaColorBlack
  | .blocked => vgaEntryColor vgaColorLightRed vgaColorBlack
  | .zombie => vgaEntryColor vgaColorDarkGrey vgaColorBlack
  | .stopped => vgaEntryColor vgaColorLightBrown vgaColorBlack

/-- The borders of a cell and the blank rows inside. -/
def epDrawFrame (x0 y0 : ℕ) (bc : Byte) (v : Display) : Display :=
  let v := (List.range 2).foldl (fun v edge =>
    let ey := if edge ≠ 0 then y0 + epCellH - 1 else y0
    let v := epPut x0 ey 43 bc v
    let v := (List.range (epCellW - 2)).foldl (fun v i => epPut (x0 + (i + 1)) ey 45 bc v) v
    epPut (x0 + epCellW - 1) ey 43 bc v) v
  (List.range (epCellH - 2)).foldl (fun v dr =>
    let v := epPut x0 (y0 + (dr + 1)) 124 bc v
    let v := epPuts (x0 + 1) (y0 + (dr + 1)) [] bc epInnerW v
    epPut (x0 + epCellW - 1) (y0 + (dr + 1)) 124 bc v) v

def epPidLine (t : Task) : List Byte :=
  (if t.isUserspace then 85 else 75) :: chars "PID: " ++ epUint (BitVec.ofNat 32 t.pid)

def epUidLine (t : Task) : List Byte := chars "UID: " ++ epUint (BitVec.ofNat 32 t.uid)

def epCodeLine (t : Task) : List Byte := chars "Cod: 0x" ++ epFmtHex8 (BitVec.ofNat 32 t.mm.codeStart)

def epStackLine (t : Task) : List Byte :=
  let stk := if t.isUserspace then t.mm.stackTop else if t.kstack ≠ 0 then t.kstack + kstackPages * pageSize else 0
  (if t.isUserspace then chars "Stk" else chars "kSt") ++ chars ": 0x" ++ epFmtHex8 (BitVec.ofNat 32 stk)

/-- The texts in a cell. -/
def epDrawTask (x0 y0 : ℕ) (t : Task) (v : Display) : Display :=
  let text := vgaEntryColor vgaColorWhite vgaColorBlack
  let dim := vgaEntryColor vgaColorLightGrey vgaColorBlack
  let addr := vgaEntryColor vgaColorLightBrown vgaColorBlack
  let v := epPuts (x0 + 1) (y0 + 1) (epPidLine t) text epInnerW v
  let v := epPuts (x0 + 1) (y0 + 2) (chars "State: ") dim 7 v
  let v := epPuts (x0 + 8) (y0 + 2) (epStateName t.state) (epStateColor t.state) (epInnerW - 7) v
  let v := epPuts (x0 + 1) (y0 + 3) (epUidLine t) dim epInnerW v
  let v := epPuts (x0 + 1) (y0 + 4) (epCodeLine t) addr epInnerW v
  epPuts (x0 + 1) (y0 + 5) (epStackLine t) addr epInnerW v

def epDrawCell (gc gr : ℕ) (t : Option Task) (v : Display) : Display :=
  let x0 := gc * epCellW
  let y0 := gr * epCellH
  let bc := if t.isSome then vgaEntryColor vgaColorLightGrey vgaColorBlack
    else vgaEntryColor vgaColorDarkGrey vgaColorBlack
  let v := epDrawFrame x0 y0 bc v
  match t with
  | none => v
  | some t => epDrawTask x0 y0 t v

/-- `ep_bar_str` and, on the digits, `ep_bar_uint`: the new column and the screen. -/
def epBarStr (s : List Byte) (color : Byte) (row : ℕ) (r : ℕ × Display) : ℕ × Display :=
  s.foldl (fun r c => (r.1 + 1, terminalPutentryat c color r.1 row r.2)) r

def epBarUint (v : BitVec 32) (color : Byte) (row : ℕ) (r : ℕ × Display) : ℕ × Display :=
  epBarStr (epUint v) color row r

/-- `terminal_set_cursor` -/
def terminalSetCursor (x y : ℕ) (v : Display) : Display := { v with cursor := BitVec.ofNat 16 (y * vgaX + x) }

/-- The number of tasks in a state. -/
def epCount (state : TaskState) (procs : List Task) : ℕ := procs.countP fun t => t.state = state

def epDrawStatusbar (page totalPages : ℕ) (procs : List Task) (v : Display) : Display :=
  let bar := vgaEntryColor vgaColorBlack vgaColorLightGrey
  let hi := vgaEntryColor vgaColorGreen vgaColorLightGrey
  let blk := vgaEntryColor vgaColorLightGrey vgaColorBlack
  let crun := vgaEntryColor vgaColorLightGreen vgaColorLightGrey
  let crbl := vgaEntryColor vgaColorLightCyan vgaColorLightGrey
  let cblk := vgaEntryColor vgaColorLightRed vgaColorLightGrey
  let czmb := vgaEntryColor vgaColorDarkGrey vgaColorLightGrey
  let v := (List.range 80).foldl (fun v x => epPut x 21 32 blk v) v
  let v := (List.range 80).foldl (fun v x => epPut x 23 32 bar (epPut x 22 32 bar v)) v
  let v := (List.range 80).foldl (fun v x => epPut x 24 32 blk v) v
  let r := epBarStr (chars "eyeproc") hi 22 (1, v)
  let r := epBarStr (chars "  |  pg ") bar 22 r
  let r := epBarUint (BitVec.ofNat 32 (page + 1)) bar 22 r
  let r := (r.1 + 1, terminalPutentryat 47 bar r.1 22 r.2)
  let r := epBarUint (BitVec.ofNat 32 totalPages) bar 22 r
  let r := epBarStr (chars "  |  UP prev   DOWN next   ESC quit") bar 22 r
  let r := epBarStr (chars "procs: ") bar 23 (1, r.2)
  let r := epBarUint (BitVec.ofNat 32 procs.length) bar 23 r
  let r := epBarStr (chars "   running: ") bar 23 r
  let r := epBarUint (BitVec.ofNat 32 (epCount .running procs)) crun 23 r
  let r := epBarStr (chars "   runnable: ") bar 23 r
  let r := epBarUint (BitVec.ofNat 32 (epCount .runnable procs)) crbl 23 r
  let r := epBarStr (chars "   blocked: ") bar 23 r
  let r := epBarUint (BitVec.ofNat 32 (epCount .blocked procs)) cblk 23 r
  let r := epBarStr (chars "   zombie: ") bar 23 r
  let r := epBarUint (BitVec.ofNat 32 (epCount .zombie procs)) czmb 23 r
  terminalSetCursor 1 22 r.2

def epRender (page : ℕ) (procs : List Task) (totalPages : ℕ) (v : Display) : Display :=
  let v := (List.range epRows).foldl (fun v gr =>
    (List.range epCols).foldl (fun v gc => epDrawCell gc gr procs[page * epPerPage + gr * epCols + gc]? v) v) v
  epDrawStatusbar page totalPages procs v

/-- What is read from the ports 0x64 and 0x60 when a byte is there. -/
structure Reading where
  status : Byte
  scancode : Byte

/-- The state of the loop of `shell_eyeproc`. -/
structure Monitor where
  page : ℕ
  extended : Bool
  quit : Bool
  display : Display

/-- `total_pages` -/
def epTotalPages (procs : List Task) : ℕ :=
  let totalPages := (procs.length + epPerPage - 1) / epPerPage
  if totalPages < 1 then 1 else totalPages

/-- A round of the loop. -/
def Monitor.round (procs : List Task) (r : Reading) (m : Monitor) : Monitor :=
  if r.status &&& 1 = 0 then m
  else if r.scancode = 0xE0 then { m with extended := true }
  else if m.extended then
    let m := { m with extended := false }
    if r.scancode &&& 0x80 = 0 then
      if r.scancode = 0x48 ∧ m.page > 0 then
        { m with page := m.page - 1, display := epRender (m.page - 1) procs (epTotalPages procs) m.display }
      else if r.scancode = 0x50 ∧ m.page < epTotalPages procs - 1 then
        { m with page := m.page + 1, display := epRender (m.page + 1) procs (epTotalPages procs) m.display }
      else m
    else m
  else if r.scancode &&& 0x80 = 0 ∧ r.scancode = 1 then { m with quit := true }
  else m

/-- `while (!quit)`, over the readings; nothing if they come to an end before the loop does. -/
def Monitor.loop (procs : List Task) : List Reading → Monitor → Option Monitor
  | [], m => if m.quit then some m else none
  | r :: rs, m => if m.quit then some m else Monitor.loop procs rs (m.round procs r)

/-- The loop that fills `procs`. -/
def collectTasks (s : KState) : ℕ → Option ℕ → List ℕ
  | 0, _ => []
  | _ + 1, none => []
  | n + 1, some t => t :: collectTasks s n (s.next t)

/-- The screen with the first page on it. -/
def Monitor.start (procs : List Task) (v : Display) : Monitor where
  page := 0
  extended := false
  quit := false
  display := epRender 0 procs (epTotalPages procs) (terminalClear v)

/-- The tasks that `shell_eyeproc` shows. -/
def eyeprocTasks (s : KState) : List Task := (collectTasks s maxProc s.taskListHead).map s.task

/-- `shell_eyeproc`, if the readings bring it to an end. -/
def shellEyeproc (s : KState) (rs : List Reading) (v : Display) : Option Display :=
  (Monitor.loop (eyeprocTasks s) rs (Monitor.start (eyeprocTasks s) v)).map fun m =>
    shellPrintPrompt (terminalClear m.display)

variable {f g : Display → Display} {p q : ℕ → Option Cell} {v : Display} {x y x0 y0 w n i page total gc gr : ℕ}
  {color : Byte} {procs : List Task} {m : Monitor} {r : Reading}

/-! ### Layers on the screen -/

/-- A piece of the row `y` from the column `x` on. -/
def span (y x w : ℕ) (g : ℕ → Cell) : ℕ → Option Cell := fun i =>
  if i / vgaX = y ∧ x ≤ i % vgaX ∧ i % vgaX < x + w then some (g (i % vgaX - x)) else none

/-- `f` stores a layer into video memory and changes nothing else. -/
structure Paints (f : Display → Display) (p : ℕ → Option Cell) : Prop where
  same : ∀ v, f v = { v with terminalBuffer := (f v).terminalBuffer, writes := (f v).writes }
  buffer : ∀ v, (f v).terminalBuffer = paint p v.terminalBuffer
  writes : ∀ v, ∃ ws, (f v).writes = v.writes ++ ws ∧ ∀ w ∈ ws, (p w.index).isSome = true

theorem Paints.none : Paints (fun v => v) fun _ => Option.none :=
  ⟨fun _ => rfl, fun _ => rfl, fun _ => ⟨[], (List.append_nil _).symm, fun _ hw => nomatch hw⟩⟩

theorem Paints.comp (hf : Paints f p) (hg : Paints g q) : Paints (fun v => g (f v)) (onTop q p) := by
  refine ⟨fun v => ?_, fun v => ?_, fun v => ?_⟩
  · have hsame := hg.same (f v)
    rw [hf.same v] at hsame ⊢
    exact hsame
  · rw [paint_onTop, ← hf.buffer, ← hg.buffer]
  · obtain ⟨ws, hws, hall⟩ := hf.writes v
    obtain ⟨ws', hws', hall'⟩ := hg.writes (f v)
    refine ⟨ws ++ ws', by rw [hws', hws, List.append_assoc], fun w hw => onTop_isSome.mpr ?_⟩
    rcases List.mem_append.mp hw with hw | hw
    · exact .inr (hall w hw)
    · exact .inl (hall' w hw)

theorem Paints.congr (h : Paints f p) (hpq : p = q) : Paints f q := hpq ▸ h

/-- A cell. -/
theorem Paints.put (hx : x < vgaX) (c color : Byte) :
    Paints (terminalPutentryat c color x y) (span y x 1 fun _ => vgaEntry c color) := by
  have hplace : (y * vgaX + x) / vgaX = y ∧ (y * vgaX + x) % vgaX = x := by
    simp only [vgaX] at *
    omega
  refine ⟨fun v => rfl, fun v => ?_, fun v => ⟨[_], rfl, fun w hw => ?_⟩⟩
  · funext i
    unfold paint span
    by_cases hi : i = y * vgaX + x
    · rw [hi, if_pos ⟨hplace.1, by omega, by omega⟩]
      exact Function.update_self _ _ _
    · rw [if_neg]
      · exact Function.update_of_ne hi _ _
      · simp only [vgaX] at *
        omega
  · rw [List.mem_singleton.mp hw]
    unfold span
    rw [if_pos ⟨hplace.1, by dsimp only; omega, by dsimp only; omega⟩]
    rfl

theorem span_of_mem {g : ℕ → Cell} (h : i / vgaX = y ∧ x ≤ i % vgaX ∧ i % vgaX < x + w) :
    span y x w g i = some (g (i % vgaX - x)) := if_pos h

theorem span_of_notMem {g : ℕ → Cell} (h : ¬(i / vgaX = y ∧ x ≤ i % vgaX ∧ i % vgaX < x + w)) : span y x w g i = none :=
  if_neg h

/-- Two pieces of a row next to each other. -/
theorem span_append (y x a b : ℕ) (g h : ℕ → Cell) :
    onTop (span y (x + a) b h) (span y x a g) = span y x (a + b) fun k => if k < a then g k else h (k - a) := by
  funext i
  by_cases hrow : i / vgaX = y ∧ x ≤ i % vgaX ∧ i % vgaX < x + (a + b)
  · rw [span_of_mem hrow]
    by_cases hleft : i % vgaX < x + a
    · have hin : i % vgaX - x < a := by omega
      rw [onTop_of_none (span_of_notMem (by omega)), span_of_mem ⟨hrow.1, hrow.2.1, hleft⟩]
      exact congrArg some (if_pos hin).symm
    · have hout : ¬i % vgaX - x < a := by omega
      rw [onTop_of_some (span_of_mem ⟨hrow.1, by omega, by omega⟩), Nat.sub_add_eq]
      exact congrArg some (if_neg hout).symm
  · rw [onTop_of_none (span_of_notMem (by omega)), span_of_notMem (by omega), span_of_notMem hrow]

theorem span_congr {g h : ℕ → Cell} (hgh : ∀ k < w, g k = h k) : span y x w g = span y x w h := by
  funext i
  by_cases hin : i / vgaX = y ∧ x ≤ i % vgaX ∧ i % vgaX < x + w
  · rw [span_of_mem hin, span_of_mem hin, hgh _ (by omega)]
  · rw [span_of_notMem hin, span_of_notMem hin]

theorem span_zero (y x : ℕ) (g : ℕ → Cell) : span y x 0 g = fun _ => none := by
  funext i
  exact span_of_notMem (by omega)

/-- A loop along a row. -/
theorem Paints.row (c color : ℕ → Byte) (hw : x + n ≤ vgaX) :
    Paints (fun v => (List.range n).foldl (fun v k => terminalPutentryat (c k) (color k) (x + k) y v) v)
      (span y x n fun k => vgaEntry (c k) (color k)) := by
  induction n with
  | zero =>
    rw [span_zero]
    exact .none
  | succ n ih =>
    have hlast := (ih (by omega)).comp (Paints.put (y := y) (show x + n < vgaX by omega) (c n) (color n))
    rw [span_append] at hlast
    have hcells : ∀ k < n + 1, (if k < n then vgaEntry (c k) (color k) else vgaEntry (c n) (color n)) = vgaEntry (c k) (color k) := by
      intro k hk
      split
      · rfl
      · have hkn : k = n := by omega
        rw [hkn]
    rw [span_congr hcells] at hlast
    simpa only [List.range_succ, List.foldl_append, List.foldl_cons, List.foldl_nil] using hlast

/-- A text and blanks behind it, in a field of a row. -/
def field (y x w : ℕ) (s : List Byte) (color : Byte) : ℕ → Option Cell := span y x w fun k => vgaEntry (s.getD k 32) color

theorem Paints.epPuts (s : List Byte) (color : Byte) (hw : x + w ≤ vgaX) :
    Paints (epPuts x y s color w) (field y x w s color) := by
  have htext : x + min s.length w ≤ vgaX := by omega
  have hblank : x + min s.length w + (w - min s.length w) ≤ vgaX := by omega
  have hboth := (Paints.row (y := y) (fun k => s.getD k 0) (fun _ => color) htext).comp
    (Paints.row (y := y) (fun _ => 32) (fun _ => color) hblank)
  have hsum : min s.length w + (w - min s.length w) = w := by omega
  rw [span_append, hsum] at hboth
  have hcells : ∀ k < w, (if k < min s.length w then vgaEntry (s.getD k 0) color else vgaEntry 32 color) =
      vgaEntry (s.getD k 32) color := by
    intro k hk
    by_cases hin : k < s.length
    · rw [if_pos (by omega), List.getD_eq_getElem _ _ hin, List.getD_eq_getElem _ _ hin]
    · rw [if_neg (by omega), List.getD_eq_default _ _ (by omega)]
  rw [span_congr hcells] at hboth
  have hadd : ∀ v : Display, (List.range (w - min s.length w)).foldl
      (fun v k => terminalPutentryat 32 color (x + min s.length w + k) y v) v =
      (List.range (w - min s.length w)).foldl (fun v k => terminalPutentryat 32 color (x + (min s.length w + k)) y v) v := by
    intro v
    simp only [Nat.add_assoc]
  simp only [hadd] at hboth
  exact hboth

/-- A rectangle of the screen. -/
def block (y x h w : ℕ) (g : ℕ → ℕ → Cell) : ℕ → Option Cell := fun i =>
  if (y ≤ i / vgaX ∧ i / vgaX < y + h) ∧ x ≤ i % vgaX ∧ i % vgaX < x + w then some (g (i / vgaX - y) (i % vgaX - x)) else none

theorem block_of_mem {h : ℕ} {g : ℕ → ℕ → Cell} (hi : (y ≤ i / vgaX ∧ i / vgaX < y + h) ∧ x ≤ i % vgaX ∧ i % vgaX < x + w) :
    block y x h w g i = some (g (i / vgaX - y) (i % vgaX - x)) := if_pos hi

theorem block_of_notMem {h : ℕ} {g : ℕ → ℕ → Cell}
    (hi : ¬((y ≤ i / vgaX ∧ i / vgaX < y + h) ∧ x ≤ i % vgaX ∧ i % vgaX < x + w)) : block y x h w g i = none := if_neg hi

/-- A row below a rectangle. -/
theorem block_succ (y x n w : ℕ) (g : ℕ → ℕ → Cell) :
    onTop (span (y + n) x w (g n)) (block y x n w g) = block y x (n + 1) w g := by
  funext i
  by_cases hlast : i / vgaX = y + n ∧ x ≤ i % vgaX ∧ i % vgaX < x + w
  · have hrow : i / vgaX - y = n := by omega
    rw [onTop_of_some (span_of_mem hlast), block_of_mem (by omega), hrow]
  · rw [onTop_of_none (span_of_notMem hlast)]
    by_cases hin : (y ≤ i / vgaX ∧ i / vgaX < y + n) ∧ x ≤ i % vgaX ∧ i % vgaX < x + w
    · rw [block_of_mem hin, block_of_mem (by omega)]
    · rw [block_of_notMem hin, block_of_notMem (by omega)]

/-- A loop over the rows of a rectangle. -/
theorem Paints.rows {F : ℕ → Display → Display} {G : ℕ → ℕ → Cell} (h : ∀ k < n, Paints (F k) (span (y + k) x w (G k))) :
    Paints (fun v => (List.range n).foldl (fun v k => F k v) v) (block y x n w G) := by
  induction n with
  | zero =>
    have hempty : block y x 0 w G = fun _ => Option.none := by
      funext i
      exact block_of_notMem (by omega)
    rw [hempty]
    exact .none
  | succ n ih =>
    have hlast := (ih fun k hk => h k (by omega)).comp (h n (Nat.lt_succ_self n))
    rw [block_succ] at hlast
    simpa only [List.range_succ, List.foldl_append, List.foldl_cons, List.foldl_nil] using hlast

/-- A row of a cell: the two ends, and what stands between them. -/
def walled (wall color : Byte) (g : ℕ → Cell) : ℕ → Cell := fun k =>
  if k = 0 ∨ k = 19 then vgaEntry wall color else g (k - 1)

theorem Paints.betweenWalls {G : ℕ → Cell} (hx : x0 + epCellW ≤ vgaX) (wall color : Byte) (h : Paints f (span y (x0 + 1) 18 G)) :
    Paints (fun v => epPut (x0 + epCellW - 1) y wall color (f (epPut x0 y wall color v))) (span y x0 20 (walled wall color G)) := by
  have hwidth : x0 + 20 ≤ vgaX := hx
  have hleft : Paints (epPut x0 y wall color) _ := Paints.put (y := y) (show x0 < vgaX by omega) wall color
  have hright : Paints (epPut (x0 + epCellW - 1) y wall color) _ :=
    Paints.put (y := y) (show x0 + 19 < vgaX by omega) wall color
  have hall := (hleft.comp h).comp hright
  have hsplit : x0 + 19 = x0 + (1 + 18) := rfl
  rw [span_append, hsplit, span_append] at hall
  refine hall.congr (span_congr fun k hk => ?_)
  unfold Vga.walled
  by_cases h0 : k = 0
  · rw [h0]
    rfl
  · by_cases h19 : k = 19
    · rw [h19]
      rfl
    · rw [if_pos (show k < 1 + 18 by omega), if_neg (show ¬k < 1 by omega), if_neg (show ¬(k = 0 ∨ k = 19) by omega)]

/-! ### A cell of the grid -/

/-- The frame of a cell. -/
def framePicture (bc : Byte) (dy : ℕ) : ℕ → Cell :=
  if dy = 0 ∨ dy = 6 then walled 43 bc fun _ => vgaEntry 45 bc else walled 124 bc fun _ => vgaEntry 32 bc

theorem Paints.frame (y0 : ℕ) (hx : x0 + epCellW ≤ vgaX) (bc : Byte) :
    Paints (epDrawFrame x0 y0 bc) (block y0 x0 7 20 (framePicture bc)) := by
  have hwidth : x0 + 20 ≤ vgaX := hx
  have hedge : ∀ y, Paints (fun v => epPut (x0 + epCellW - 1) y 43 bc
      ((List.range (epCellW - 2)).foldl (fun v i => epPut (x0 + (i + 1)) y 45 bc v) (epPut x0 y 43 bc v)))
      (span y x0 20 (framePicture bc 0)) := by
    intro y
    have hrow : Paints (fun v => (List.range 18).foldl (fun v i => terminalPutentryat 45 bc (x0 + 1 + i) y v) v) _ :=
      Paints.row (fun _ => 45) (fun _ => bc) (show x0 + 1 + 18 ≤ vgaX by omega)
    simp only [Nat.add_assoc, Nat.add_comm 1] at hrow
    exact hrow.betweenWalls hx 43 bc
  have hside : ∀ k < 5, Paints (fun v => epPut (x0 + epCellW - 1) (y0 + (k + 1)) 124 bc
      (Vga.epPuts (x0 + 1) (y0 + (k + 1)) [] bc epInnerW (epPut x0 (y0 + (k + 1)) 124 bc v)))
      (span (y0 + 1 + k) x0 20 (framePicture bc (k + 1))) := by
    intro k hk
    have hrow : y0 + 1 + k = y0 + (k + 1) := by omega
    have hinner : Paints (Vga.epPuts (x0 + 1) (y0 + (k + 1)) [] bc epInnerW) _ :=
      Paints.epPuts [] bc (show x0 + 1 + 18 ≤ vgaX by omega)
    have hpicture : framePicture bc (k + 1) = walled 124 bc fun _ => vgaEntry 32 bc := if_neg (by omega)
    rw [hrow, hpicture]
    exact Paints.betweenWalls hx 124 bc hinner
  have hall := ((hedge y0).comp (hedge (y0 + epCellH - 1))).comp (Paints.rows hside)
  refine Paints.congr hall ?_
  funext i
  by_cases hin : (y0 ≤ i / vgaX ∧ i / vgaX < y0 + 7) ∧ x0 ≤ i % vgaX ∧ i % vgaX < x0 + 20
  · rw [block_of_mem hin]
    by_cases htop : i / vgaX = y0
    · have hzero : i / vgaX - y0 = 0 := by omega
      rw [onTop_of_none (block_of_notMem (by omega)), onTop_of_none (span_of_notMem (by simp only [epCellH]; omega)),
        span_of_mem ⟨htop, hin.2⟩, hzero]
    · by_cases hbottom : i / vgaX = y0 + 6
      · have hsix : i / vgaX - y0 = 6 := by omega
        have hlast : i / vgaX = y0 + epCellH - 1 := hbottom
        rw [onTop_of_none (block_of_notMem (by omega)), onTop_of_some (span_of_mem ⟨hlast, hin.2⟩), hsix]
        rfl
      · have hrow : i / vgaX - (y0 + 1) + 1 = i / vgaX - y0 := by omega
        rw [onTop_of_some (block_of_mem (by omega)), hrow]
  · rw [block_of_notMem hin, onTop_of_none (block_of_notMem (by omega)),
      onTop_of_none (span_of_notMem (by simp only [epCellH]; omega)), span_of_notMem (by omega)]

/-- What the rows 1 to 5 of a cell say, from the column behind the wall on. -/
def taskPicture (t : Task) (dy k : ℕ) : Cell :=
  match dy with
  | 1 => vgaEntry ((epPidLine t).getD k 32) (vgaEntryColor vgaColorWhite vgaColorBlack)
  | 2 =>
    if k < 7 then vgaEntry ((chars "State: ").getD k 32) (vgaEntryColor vgaColorLightGrey vgaColorBlack)
    else vgaEntry ((epStateName t.state).getD (k - 7) 32) (epStateColor t.state)
  | 3 => vgaEntry ((epUidLine t).getD k 32) (vgaEntryColor vgaColorLightGrey vgaColorBlack)
  | 4 => vgaEntry ((epCodeLine t).getD k 32) (vgaEntryColor vgaColorLightBrown vgaColorBlack)
  | _ => vgaEntry ((epStackLine t).getD k 32) (vgaEntryColor vgaColorLightBrown vgaColorBlack)

/-- A cell of the grid, with a task in it or without. -/
def cellPicture (t : Option Task) (dy : ℕ) : ℕ → Cell :=
  match t with
  | none => framePicture (vgaEntryColor vgaColorDarkGrey vgaColorBlack) dy
  | some t =>
    if dy = 0 ∨ dy = 6 then framePicture (vgaEntryColor vgaColorLightGrey vgaColorBlack) dy
    else walled 124 (vgaEntryColor vgaColorLightGrey vgaColorBlack) (taskPicture t dy)

theorem block_zero (y x w : ℕ) (g : ℕ → ℕ → Cell) : block y x 0 w g = fun _ => none := by
  funext i
  exact block_of_notMem (by omega)

/-- A row below what is drawn. -/
theorem Paints.below {G : ℕ → ℕ → Cell} (hf : Paints f (block y x n w G)) (hg : Paints g (span (y + n) x w (G n))) :
    Paints (fun v => g (f v)) (block y x (n + 1) w G) := (hf.comp hg).congr (block_succ y x n w G)

theorem Paints.task (y0 : ℕ) (hx : x0 + epCellW ≤ vgaX) (t : Task) :
    Paints (epDrawTask x0 y0 t) (block (y0 + 1) (x0 + 1) 5 18 fun k => taskPicture t (k + 1)) := by
  have hwidth : x0 + 20 ≤ vgaX := hx
  have hline : ∀ {y : ℕ} (s : List Byte) (color : Byte), Paints (Vga.epPuts (x0 + 1) y s color epInnerW) (field y (x0 + 1) 18 s color) :=
    fun s color => Paints.epPuts s color (show x0 + 1 + 18 ≤ vgaX by omega)
  have hstate : Paints (fun v => Vga.epPuts (x0 + 8) (y0 + 2) (epStateName t.state) (epStateColor t.state) (epInnerW - 7)
      (Vga.epPuts (x0 + 1) (y0 + 2) (chars "State: ") (vgaEntryColor vgaColorLightGrey vgaColorBlack) 7 v))
      (span (y0 + 1 + 1) (x0 + 1) 18 (taskPicture t 2)) := by
    have hleft := Paints.epPuts (y := y0 + 2) (chars "State: ") (vgaEntryColor vgaColorLightGrey vgaColorBlack)
      (show x0 + 1 + 7 ≤ vgaX by omega)
    have hright := Paints.epPuts (y := y0 + 2) (epStateName t.state) (epStateColor t.state) (show x0 + 1 + 7 + 11 ≤ vgaX by omega)
    exact (hleft.comp hright).congr (span_append (y0 + 2) (x0 + 1) 7 11 _ _)
  have hpid : Paints _ (span (y0 + 1 + 0) (x0 + 1) 18 (taskPicture t 1)) :=
    hline (y := y0 + 1) (epPidLine t) (vgaEntryColor vgaColorWhite vgaColorBlack)
  have huid : Paints _ (span (y0 + 1 + 2) (x0 + 1) 18 (taskPicture t 3)) :=
    hline (y := y0 + 3) (epUidLine t) (vgaEntryColor vgaColorLightGrey vgaColorBlack)
  have hcode : Paints _ (span (y0 + 1 + 3) (x0 + 1) 18 (taskPicture t 4)) :=
    hline (y := y0 + 4) (epCodeLine t) (vgaEntryColor vgaColorLightBrown vgaColorBlack)
  have hstack : Paints _ (span (y0 + 1 + 4) (x0 + 1) 18 (taskPicture t 5)) :=
    hline (y := y0 + 5) (epStackLine t) (vgaEntryColor vgaColorLightBrown vgaColorBlack)
  have hempty : Paints (fun v => v) (block (y0 + 1) (x0 + 1) 0 18 fun k => taskPicture t (k + 1)) :=
    Paints.none.congr (block_zero _ _ _ _).symm
  have h₁ : Paints _ (block (y0 + 1) (x0 + 1) 1 18 fun k => taskPicture t (k + 1)) := hempty.below hpid
  have h₂ : Paints _ (block (y0 + 1) (x0 + 1) 2 18 fun k => taskPicture t (k + 1)) := h₁.below hstate
  have h₃ : Paints _ (block (y0 + 1) (x0 + 1) 3 18 fun k => taskPicture t (k + 1)) := h₂.below huid
  have h₄ : Paints _ (block (y0 + 1) (x0 + 1) 4 18 fun k => taskPicture t (k + 1)) := h₃.below hcode
  exact h₄.below hstack

theorem epDrawCell_none (gc gr : ℕ) : epDrawCell gc gr none =
    epDrawFrame (gc * epCellW) (gr * epCellH) (vgaEntryColor vgaColorDarkGrey vgaColorBlack) := by
  funext v
  unfold epDrawCell
  rw [Option.isSome_none, if_neg Bool.false_ne_true]

theorem epDrawCell_some (gc gr : ℕ) (t : Task) : epDrawCell gc gr (some t) = fun v =>
    epDrawTask (gc * epCellW) (gr * epCellH) t
      (epDrawFrame (gc * epCellW) (gr * epCellH) (vgaEntryColor vgaColorLightGrey vgaColorBlack) v) := by
  funext v
  unfold epDrawCell
  rw [Option.isSome_some, if_pos rfl]

theorem Paints.cell (gr : ℕ) (hx : gc * epCellW + epCellW ≤ vgaX) (t : Option Task) :
    Paints (epDrawCell gc gr t) (block (gr * epCellH) (gc * epCellW) 7 20 (cellPicture t)) := by
  cases t with
  | none =>
    rw [epDrawCell_none]
    exact Paints.frame _ hx _
  | some t =>
    rw [epDrawCell_some]
    have hboth := (Paints.frame (gr * epCellH) hx (vgaEntryColor vgaColorLightGrey vgaColorBlack)).comp
      (Paints.task (gr * epCellH) hx t)
    refine Paints.congr hboth ?_
    generalize gr * epCellH = y0
    generalize gc * epCellW = x0
    funext i
    by_cases hinner : (y0 + 1 ≤ i / vgaX ∧ i / vgaX < y0 + 1 + 5) ∧ x0 + 1 ≤ i % vgaX ∧ i % vgaX < x0 + 1 + 18
    · have hrow : i / vgaX - (y0 + 1) + 1 = i / vgaX - y0 := by omega
      have hcolumn : i % vgaX - (x0 + 1) = i % vgaX - x0 - 1 := by omega
      have hinside : ¬(i / vgaX - y0 = 0 ∨ i / vgaX - y0 = 6) := by omega
      have hbetween : ¬(i % vgaX - x0 = 0 ∨ i % vgaX - x0 = 19) := by omega
      rw [onTop_of_some (block_of_mem hinner), block_of_mem (by omega), hrow, hcolumn, cellPicture, if_neg hinside, walled,
        if_neg hbetween]
    · rw [onTop_of_none (block_of_notMem hinner)]
      by_cases hin : (y0 ≤ i / vgaX ∧ i / vgaX < y0 + 7) ∧ x0 ≤ i % vgaX ∧ i % vgaX < x0 + 20
      · rw [block_of_mem hin, block_of_mem hin, cellPicture]
        by_cases hedge : i / vgaX - y0 = 0 ∨ i / vgaX - y0 = 6
        · rw [if_pos hedge]
        · have hwall : i % vgaX - x0 = 0 ∨ i % vgaX - x0 = 19 := by omega
          rw [if_neg hedge, framePicture, if_neg hedge, walled, walled, if_pos hwall, if_pos hwall]
      · rw [block_of_notMem hin, block_of_notMem hin]

/-! ### The grid -/

/-- Cells next to each other. -/
theorem Paints.columns {h : ℕ} {F : ℕ → Display → Display} {G : ℕ → ℕ → ℕ → Cell}
    (hF : ∀ k < n, Paints (F k) (block y (k * 20) h 20 (G k))) :
    Paints (fun v => (List.range n).foldl (fun v k => F k v) v) (block y 0 h (n * 20) fun dy dx => G (dx / 20) dy (dx % 20)) := by
  induction n with
  | zero =>
    have hempty : block y 0 h (0 * 20) (fun dy dx => G (dx / 20) dy (dx % 20)) = fun _ => Option.none := by
      funext i
      exact block_of_notMem (by omega)
    rw [hempty]
    exact .none
  | succ n ih =>
    have hlast := (ih fun k hk => hF k (by omega)).comp (hF n (Nat.lt_succ_self n))
    have hlayer : onTop (block y (n * 20) h 20 (G n)) (block y 0 h (n * 20) fun dy dx => G (dx / 20) dy (dx % 20)) =
        block y 0 h ((n + 1) * 20) fun dy dx => G (dx / 20) dy (dx % 20) := by
      funext i
      by_cases hin : (y ≤ i / vgaX ∧ i / vgaX < y + h) ∧ n * 20 ≤ i % vgaX ∧ i % vgaX < n * 20 + 20
      · have hdiv : (i % vgaX - 0) / 20 = n := by omega
        have hmod : (i % vgaX - 0) % 20 = i % vgaX - n * 20 := by omega
        rw [onTop_of_some (block_of_mem hin), block_of_mem (by omega), hdiv, hmod]
      · rw [onTop_of_none (block_of_notMem hin)]
        by_cases hleft : (y ≤ i / vgaX ∧ i / vgaX < y + h) ∧ 0 ≤ i % vgaX ∧ i % vgaX < 0 + n * 20
        · rw [block_of_mem hleft, block_of_mem (by omega)]
        · rw [block_of_notMem hleft, block_of_notMem (by omega)]
    rw [hlayer] at hlast
    simpa only [List.range_succ, List.foldl_append, List.foldl_cons, List.foldl_nil] using hlast

/-- Rows of cells below each other. -/
theorem Paints.bands {F : ℕ → Display → Display} {G : ℕ → ℕ → ℕ → Cell}
    (hF : ∀ k < n, Paints (F k) (block (k * 7) 0 7 w (G k))) :
    Paints (fun v => (List.range n).foldl (fun v k => F k v) v) (block 0 0 (n * 7) w fun dy => G (dy / 7) (dy % 7)) := by
  induction n with
  | zero => exact Paints.none.congr (block_zero 0 0 w _).symm
  | succ n ih =>
    have hlast := (ih fun k hk => hF k (by omega)).comp (hF n (Nat.lt_succ_self n))
    have hlayer : onTop (block (n * 7) 0 7 w (G n)) (block 0 0 (n * 7) w fun dy => G (dy / 7) (dy % 7)) =
        block 0 0 ((n + 1) * 7) w fun dy => G (dy / 7) (dy % 7) := by
      funext i
      by_cases hin : (n * 7 ≤ i / vgaX ∧ i / vgaX < n * 7 + 7) ∧ 0 ≤ i % vgaX ∧ i % vgaX < 0 + w
      · have hdiv : (i / vgaX - 0) / 7 = n := by omega
        have hmod : (i / vgaX - 0) % 7 = i / vgaX - n * 7 := by omega
        rw [onTop_of_some (block_of_mem hin), block_of_mem (by omega), hdiv, hmod]
      · rw [onTop_of_none (block_of_notMem hin)]
        by_cases habove : (0 ≤ i / vgaX ∧ i / vgaX < 0 + n * 7) ∧ 0 ≤ i % vgaX ∧ i % vgaX < 0 + w
        · rw [block_of_mem habove, block_of_mem (by omega)]
        · rw [block_of_notMem habove, block_of_notMem (by omega)]
    rw [hlayer] at hlast
    simpa only [List.range_succ, List.foldl_append, List.foldl_cons, List.foldl_nil] using hlast

/-- The grid of a page, by row and column of the screen. -/
def gridPicture (page : ℕ) (procs : List Task) (y x : ℕ) : Cell :=
  cellPicture procs[page * epPerPage + y / 7 * epCols + x / 20]? (y % 7) (x % 20)

theorem Paints.grid (page : ℕ) (procs : List Task) : Paints (fun v => (List.range epRows).foldl (fun v gr =>
    (List.range epCols).foldl (fun v gc => epDrawCell gc gr procs[page * epPerPage + gr * epCols + gc]? v) v) v)
    (block 0 0 21 80 (gridPicture page procs)) := by
  refine Paints.bands (n := 3) (G := fun gr dy dx => cellPicture procs[page * epPerPage + gr * epCols + dx / 20]? dy (dx % 20))
    fun gr _ => ?_
  refine Paints.columns (n := 4) (G := fun gc dy dx => cellPicture procs[page * epPerPage + gr * epCols + gc]? dy dx)
    fun gc hgc => ?_
  exact Paints.cell gr (by simp only [epCellW, vgaX]; omega) _

/-! ### The bars -/

/-- Characters with their colours. -/
abbrev Coloured := List (Byte × Byte)

def coloured (color : Byte) (s : List Byte) : Coloured := s.map fun c => (c, color)

def barWrite (row : ℕ) (l : Coloured) (r : ℕ × Display) : ℕ × Display :=
  l.foldl (fun r c => (r.1 + 1, terminalPutentryat c.1 c.2 r.1 row r.2)) r

theorem epBarStr_eq (s : List Byte) (color : Byte) (row : ℕ) (r : ℕ × Display) :
    epBarStr s color row r = barWrite row (coloured color s) r := by
  rw [barWrite, coloured, List.foldl_map]
  rfl

theorem barWrite_append (row : ℕ) (l l' : Coloured) (r : ℕ × Display) :
    barWrite row (l ++ l') r = barWrite row l' (barWrite row l r) := List.foldl_append

def colouredCell (c : Byte × Byte) : Cell := vgaEntry c.1 c.2

theorem Paints.bar (row : ℕ) (l : Coloured) (hw : x + l.length ≤ vgaX) :
    (∀ v, (barWrite row l (x, v)).1 = x + l.length) ∧
      Paints (fun v => (barWrite row l (x, v)).2) (span row x l.length fun k => colouredCell (l.getD k (0, 0))) := by
  induction l using List.reverseRecOn with
  | nil =>
    refine ⟨fun v => rfl, ?_⟩
    rw [List.length_nil, span_zero]
    exact .none
  | append_singleton l c ih =>
    rw [List.length_append, List.length_singleton] at hw ⊢
    obtain ⟨hcolumn, hpaints⟩ := ih (by omega)
    have hstep : ∀ v, barWrite row (l ++ [c]) (x, v) =
        (x + l.length + 1, terminalPutentryat c.1 c.2 (x + l.length) row (barWrite row l (x, v)).2) := by
      intro v
      rw [barWrite_append, ← hcolumn v]
      rfl
    refine ⟨fun v => congrArg Prod.fst (hstep v), ?_⟩
    have hlast := hpaints.comp (Paints.put (y := row) (show x + l.length < vgaX by omega) c.1 c.2)
    rw [span_append] at hlast
    have hcells : ∀ k < l.length + 1, (if k < l.length then colouredCell (l.getD k (0, 0)) else vgaEntry c.1 c.2) =
        colouredCell ((l ++ [c]).getD k (0, 0)) := by
      intro k hk
      by_cases hin : k < l.length
      · rw [if_pos hin, List.getD_append _ _ _ _ hin]
      · have hkl : k = l.length := by omega
        rw [if_neg hin, hkl, List.getD_append_right _ _ _ _ (Nat.le_refl _), Nat.sub_self]
        rfl
    rw [span_congr hcells] at hlast
    simp only [hstep]
    exact hlast

theorem epUint_eq (v : BitVec 32) : epUint v = decimalString v.toNat := by
  obtain ⟨buf, hbuf, hdigits⟩ := epFmtUint_eq (fun _ => 0) v fun _ => 0
  unfold epUint
  rw [hbuf]
  dsimp only
  refine List.ext_getElem ?_ fun k hk hk' => ?_
  · rw [List.length_map, List.length_range]
  · rw [List.getElem_map, List.getElem_range, hdigits, List.getD_eq_getElem _ _ hk']

theorem epUint_length {k : ℕ} (hk : 0 < k) (hn : n < 10 ^ k) (hword : n < 2 ^ 32) :
    (epUint (BitVec.ofNat 32 n)).length ≤ k := by
  rw [epUint_eq, decimalString, numeralString, List.length_map, BitVec.toNat_ofNat, Nat.mod_eq_of_lt hword]
  exact Numerals.numeral_length_le (by decide) hk hn

/-- The text of row 22. -/
def navigationBar (page total : ℕ) : Coloured :=
  let bar := vgaEntryColor vgaColorBlack vgaColorLightGrey
  coloured (vgaEntryColor vgaColorGreen vgaColorLightGrey) (chars "eyeproc") ++ coloured bar (chars "  |  pg ") ++
    coloured bar (epUint (BitVec.ofNat 32 (page + 1))) ++ coloured bar [47] ++
    coloured bar (epUint (BitVec.ofNat 32 total)) ++ coloured bar (chars "  |  UP prev   DOWN next   ESC quit")

/-- The text of row 23. -/
def statisticsBar (procs : List Task) : Coloured :=
  let bar := vgaEntryColor vgaColorBlack vgaColorLightGrey
  let count := fun color state =>
    coloured (vgaEntryColor color vgaColorLightGrey) (epUint (BitVec.ofNat 32 (epCount state procs)))
  coloured bar (chars "procs: ") ++ coloured bar (epUint (BitVec.ofNat 32 procs.length)) ++
    coloured bar (chars "   running: ") ++ count vgaColorLightGreen .running ++
    coloured bar (chars "   runnable: ") ++ count vgaColorLightCyan .runnable ++
    coloured bar (chars "   blocked: ") ++ count vgaColorLightRed .blocked ++
    coloured bar (chars "   zombie: ") ++ count vgaColorDarkGrey .zombie

theorem navigationBar_length (hpage : page < total) (htotal : total < 100) : (navigationBar page total).length ≤ 79 := by
  have hnow := epUint_length (show 0 < 2 by decide) (show page + 1 < 10 ^ 2 by omega) (by omega)
  have hall := epUint_length (show 0 < 2 by decide) (show total < 10 ^ 2 by omega) (by omega)
  simp only [navigationBar, coloured, chars, List.length_append, List.length_map, List.length_cons, List.length_nil]
  simp
  omega

theorem statisticsBar_length (hprocs : procs.length < 1000) : (statisticsBar procs).length ≤ 79 := by
  have hcount : ∀ state, (epUint (BitVec.ofNat 32 (epCount state procs))).length ≤ 3 := by
    intro state
    have hle : epCount state procs ≤ procs.length := List.countP_le_length
    exact epUint_length (by decide) (show _ < 10 ^ 3 by omega) (by omega)
  have hprocs' := epUint_length (show 0 < 3 by decide) (show procs.length < 10 ^ 3 by omega) (by omega)
  have h₁ := hcount .running
  have h₂ := hcount .runnable
  have h₃ := hcount .blocked
  have h₄ := hcount .zombie
  simp only [statisticsBar, coloured, chars, List.length_append, List.length_map]
  simp
  omega

/-- The loops that blank the rows 21 to 24. -/
def barBackground (v : Display) : Display :=
  let bar := vgaEntryColor vgaColorBlack vgaColorLightGrey
  let blk := vgaEntryColor vgaColorLightGrey vgaColorBlack
  let v := (List.range 80).foldl (fun v x => epPut x 21 32 blk v) v
  let v := (List.range 80).foldl (fun v x => epPut x 23 32 bar (epPut x 22 32 bar v)) v
  (List.range 80).foldl (fun v x => epPut x 24 32 blk v) v

theorem epDrawStatusbar_eq (page total : ℕ) (procs : List Task) (v : Display) : epDrawStatusbar page total procs v =
    terminalSetCursor 1 22 (barWrite 23 (statisticsBar procs)
      (1, (barWrite 22 (navigationBar page total) (1, barBackground v)).2)).2 := by
  have hslash : ∀ (color : Byte) (r : ℕ × Display), (r.1 + 1, terminalPutentryat 47 color r.1 22 r.2) =
      barWrite 22 (coloured color [47]) r := fun _ _ => rfl
  unfold epDrawStatusbar epBarUint navigationBar statisticsBar
  simp only [epBarStr_eq, hslash, barWrite_append]
  rfl

/-- Two rows that are blanked side by side. -/
theorem Paints.twoRows (c color : Byte) (hn : n ≤ vgaX) :
    Paints (fun v => (List.range n).foldl (fun v x => epPut x (y + 1) c color (epPut x y c color v)) v)
      (block y 0 2 n fun _ _ => vgaEntry c color) := by
  induction n with
  | zero =>
    have hempty : block y 0 2 0 (fun _ _ => vgaEntry c color) = fun _ => Option.none := by
      funext i
      exact block_of_notMem (by omega)
    rw [hempty]
    exact .none
  | succ n ih =>
    have hupper : Paints (epPut n y c color) _ := Paints.put (y := y) (show n < vgaX by omega) c color
    have hlower : Paints (epPut n (y + 1) c color) _ := Paints.put (y := y + 1) (show n < vgaX by omega) c color
    have hall := ((ih (by omega)).comp hupper).comp hlower
    have hlayer : onTop (span (y + 1) n 1 fun _ => vgaEntry c color) (onTop (span y n 1 fun _ => vgaEntry c color)
        (block y 0 2 n fun _ _ => vgaEntry c color)) = block y 0 2 (n + 1) fun _ _ => vgaEntry c color := by
      funext i
      by_cases h₁ : i / vgaX = y + 1 ∧ n ≤ i % vgaX ∧ i % vgaX < n + 1
      · rw [onTop_of_some (span_of_mem h₁), block_of_mem (by omega)]
      · rw [onTop_of_none (span_of_notMem h₁)]
        by_cases h₂ : i / vgaX = y ∧ n ≤ i % vgaX ∧ i % vgaX < n + 1
        · rw [onTop_of_some (span_of_mem h₂), block_of_mem (by omega)]
        · rw [onTop_of_none (span_of_notMem h₂)]
          by_cases hin : (y ≤ i / vgaX ∧ i / vgaX < y + 2) ∧ 0 ≤ i % vgaX ∧ i % vgaX < 0 + n
          · rw [block_of_mem hin, block_of_mem (by omega)]
          · rw [block_of_notMem hin, block_of_notMem (by omega)]
    rw [hlayer] at hall
    simpa only [List.range_succ, List.foldl_append, List.foldl_cons, List.foldl_nil] using hall

/-! ### The screen -/

/-- A bar with its text from the second column on. -/
def barPicture (l : Coloured) (x : ℕ) : Cell :=
  if 1 ≤ x ∧ x < 1 + l.length then colouredCell (l.getD (x - 1) (0, 0))
  else vgaEntry 32 (vgaEntryColor vgaColorBlack vgaColorLightGrey)

/-- What the user is to see on a page, by row and column. -/
def screenPicture (page total : ℕ) (procs : List Task) (y x : ℕ) : Cell :=
  if y < 21 then gridPicture page procs y x
  else if y = 22 then barPicture (navigationBar page total) x
  else if y = 23 then barPicture (statisticsBar procs) x
  else vgaEntry 32 (vgaEntryColor vgaColorLightGrey vgaColorBlack)

/-- The whole screen. -/
def screen (page total : ℕ) (procs : List Task) : ℕ → Option Cell := block 0 0 25 80 (screenPicture page total procs)

theorem barPicture_over (l : Coloured) (row : ℕ) {p : ℕ → Option Cell} (hi : i / vgaX = row)
    (hp : p i = some (vgaEntry 32 (vgaEntryColor vgaColorBlack vgaColorLightGrey))) :
    onTop (span row 1 l.length fun k => colouredCell (l.getD k (0, 0))) p i = some (barPicture l (i % vgaX)) := by
  unfold barPicture
  by_cases hin : 1 ≤ i % vgaX ∧ i % vgaX < 1 + l.length
  · rw [onTop_of_some (span_of_mem ⟨hi, hin⟩), if_pos hin]
  · rw [onTop_of_none (span_of_notMem fun h => hin h.2), if_neg hin, hp]

/-- The layers of `ep_render`, one over the other, are the picture. -/
theorem screen_layers (page total : ℕ) (procs : List Task) :
    onTop (span 23 1 (statisticsBar procs).length fun k => colouredCell ((statisticsBar procs).getD k (0, 0)))
      (onTop (span 22 1 (navigationBar page total).length fun k => colouredCell ((navigationBar page total).getD k (0, 0)))
        (onTop (span 24 0 80 fun _ => vgaEntry 32 (vgaEntryColor vgaColorLightGrey vgaColorBlack))
          (onTop (block 22 0 2 80 fun _ _ => vgaEntry 32 (vgaEntryColor vgaColorBlack vgaColorLightGrey))
            (onTop (span 21 0 80 fun _ => vgaEntry 32 (vgaEntryColor vgaColorLightGrey vgaColorBlack))
              (block 0 0 21 80 (gridPicture page procs)))))) = screen page total procs := by
  funext i
  have hcolumn : 0 ≤ i % vgaX ∧ i % vgaX < 0 + 80 := ⟨Nat.zero_le _, by simp only [vgaX]; omega⟩
  have hpicture : ∀ {e : Cell}, screenPicture page total procs (i / vgaX) (i % vgaX) = e → i / vgaX < 25 →
      screen page total procs i = some e := by
    intro e he hlt
    have hin : (0 ≤ i / vgaX ∧ i / vgaX < 0 + 25) ∧ 0 ≤ i % vgaX ∧ i % vgaX < 0 + 80 := ⟨⟨Nat.zero_le _, by omega⟩, hcolumn⟩
    rw [screen, block_of_mem hin, Nat.sub_zero, Nat.sub_zero, he]
  rcases Nat.lt_or_ge (i / vgaX) 21 with hgrid | hbelow
  · have hin : (0 ≤ i / vgaX ∧ i / vgaX < 0 + 21) ∧ 0 ≤ i % vgaX ∧ i % vgaX < 0 + 80 := ⟨⟨Nat.zero_le _, by omega⟩, hcolumn⟩
    rw [onTop_of_none (span_of_notMem (by omega)), onTop_of_none (span_of_notMem (by omega)),
      onTop_of_none (span_of_notMem (by omega)), onTop_of_none (block_of_notMem (by omega)),
      onTop_of_none (span_of_notMem (by omega)), block_of_mem hin]
    exact (hpicture (if_pos hgrid) (by omega)).symm
  · by_cases h21 : i / vgaX = 21
    · rw [onTop_of_none (span_of_notMem (by omega)), onTop_of_none (span_of_notMem (by omega)),
        onTop_of_none (span_of_notMem (by omega)), onTop_of_none (block_of_notMem (by omega)),
        onTop_of_some (span_of_mem ⟨h21, hcolumn⟩)]
      refine (hpicture ?_ (by omega)).symm
      rw [screenPicture, h21]
      rfl
    · by_cases h22 : i / vgaX = 22
      · rw [onTop_of_none (span_of_notMem (by omega))]
        have hblank : ∀ {p : ℕ → Option Cell}, onTop (span 24 0 80 fun _ => vgaEntry 32 (vgaEntryColor vgaColorLightGrey vgaColorBlack))
            (onTop (block 22 0 2 80 fun _ _ => vgaEntry 32 (vgaEntryColor vgaColorBlack vgaColorLightGrey)) p) i =
            some (vgaEntry 32 (vgaEntryColor vgaColorBlack vgaColorLightGrey)) := by
          intro p
          rw [onTop_of_none (span_of_notMem (by omega)), onTop_of_some (block_of_mem (by omega))]
        rw [barPicture_over _ 22 h22 hblank]
        refine (hpicture ?_ (by omega)).symm
        rw [screenPicture, h22]
        rfl
      · by_cases h23 : i / vgaX = 23
        · have hblank : ∀ {p : ℕ → Option Cell}, onTop (span 22 1 (navigationBar page total).length fun k =>
              colouredCell ((navigationBar page total).getD k (0, 0)))
              (onTop (span 24 0 80 fun _ => vgaEntry 32 (vgaEntryColor vgaColorLightGrey vgaColorBlack))
                (onTop (block 22 0 2 80 fun _ _ => vgaEntry 32 (vgaEntryColor vgaColorBlack vgaColorLightGrey)) p)) i =
              some (vgaEntry 32 (vgaEntryColor vgaColorBlack vgaColorLightGrey)) := by
            intro p
            rw [onTop_of_none (span_of_notMem (by omega)), onTop_of_none (span_of_notMem (by omega)),
              onTop_of_some (block_of_mem (by omega))]
          rw [barPicture_over _ 23 h23 hblank]
          refine (hpicture ?_ (by omega)).symm
          rw [screenPicture, h23]
          rfl
        · by_cases h24 : i / vgaX = 24
          · rw [onTop_of_none (span_of_notMem (by omega)), onTop_of_none (span_of_notMem (by omega)),
              onTop_of_some (span_of_mem ⟨h24, hcolumn⟩)]
            refine (hpicture ?_ (by omega)).symm
            rw [screenPicture, h24]
            rfl
          · rw [onTop_of_none (span_of_notMem (by omega)), onTop_of_none (span_of_notMem (by omega)),
              onTop_of_none (span_of_notMem (by omega)), onTop_of_none (block_of_notMem (by omega)),
              onTop_of_none (span_of_notMem (by omega)), block_of_notMem (by omega), screen, block_of_notMem (by omega)]

theorem Paints.render (hpage : page < total) (htotal : total < 100) (hprocs : procs.length < 1000) :
    ∃ f, (∀ v, epRender page procs total v = terminalSetCursor 1 22 (f v)) ∧ Paints f (screen page total procs) := by
  have hrow : ∀ y, Paints (fun v => (List.range 80).foldl (fun v x => epPut x y 32
      (vgaEntryColor vgaColorLightGrey vgaColorBlack) v) v)
      (span y 0 80 fun _ => vgaEntry 32 (vgaEntryColor vgaColorLightGrey vgaColorBlack)) := by
    intro y
    have hblank := Paints.row (y := y) (x := 0) (n := 80) (fun _ => 32) (fun _ => vgaEntryColor vgaColorLightGrey vgaColorBlack)
      (by decide)
    simp only [Nat.zero_add] at hblank
    exact hblank
  have hbars := Paints.twoRows (y := 22) (n := 80) 32 (vgaEntryColor vgaColorBlack vgaColorLightGrey) (by decide)
  have hblank := (((Paints.grid page procs).comp (hrow 21)).comp hbars).comp (hrow 24)
  have hnavigation := navigationBar_length hpage htotal
  have hstatistics := statisticsBar_length hprocs
  have hupper := (Paints.bar (x := 1) 22 (navigationBar page total) (by simp only [vgaX]; omega)).2
  have hlower := (Paints.bar (x := 1) 23 (statisticsBar procs) (by simp only [vgaX]; omega)).2
  refine ⟨_, fun v => ?_, ((hblank.comp hupper).comp hlower).congr (screen_layers page total procs)⟩
  rw [epRender, epDrawStatusbar_eq]
  rfl

end HekaOS.Vga
