import HekaOS.TerminalCells

/-!
# The command line

`shell_add_char` edits `cmd_buffer` and the screen side by side. The line on the screen is compared with
the one in the buffer through the ideal terminal, on which the prompt keeps its place.
-/

namespace HekaOS.Vga

/-- `CMD_BUFFER_SIZE` -/
def cmdBufferSize : ℕ := 256

def vgaColorLightRed : Byte := 12

structure Shell where
  cmdBuffer : ℕ → Byte
  cmdIndex : ℕ
  display : Display

def shellPrintPrompt (v : Display) : Display :=
  let nameColor := vgaEntryColor vgaColorLightRed vgaColorBlack
  let symbolColor := vgaEntryColor vgaColorLightGrey vgaColorBlack
  let savedColor := v.terminalColor
  let v := terminalWrite (chars "hekaterm") (terminalSetcolor nameColor v)
  let v := terminalWrite (chars "> ") (terminalSetcolor symbolColor v)
  terminalSetcolor savedColor v

/-- `execute` is what `shell_execute` does with the command and the screen. -/
def shellAddChar (execute : (ℕ → Byte) → Display → Display) (c : Byte) (s : Shell) : Shell :=
  if c = 10 then
    let v := terminalPutchar 10 s.display
    let cmd := Function.update s.cmdBuffer s.cmdIndex 0
    { cmdBuffer := cmd, cmdIndex := 0, display := execute cmd v }
  else if c = 8 then
    if s.cmdIndex > 0 then { s with cmdIndex := s.cmdIndex - 1, display := terminalPutchar 8 s.display } else s
  else if s.cmdIndex < cmdBufferSize - 1 then
    { cmdBuffer := Function.update s.cmdBuffer s.cmdIndex c, cmdIndex := s.cmdIndex + 1
      display := terminalPutchar c s.display }
  else s

/-! ### The edits -/

/-- A line of at most 255 characters: a backspace removes the last one, and a character behind the end is
ignored. -/
def editLine (line : List Byte) (c : Byte) : List Byte :=
  if c = 8 then line.dropLast else if line.length < cmdBufferSize - 1 then line ++ [c] else line

def edited (cs : List Byte) : List Byte := cs.foldl editLine []

/-- The line and the ideal terminal that it is echoed to. -/
structure Editor where
  line : List Byte
  screen : Terminal

def Editor.type (e : Editor) (c : Byte) : Editor where
  line := editLine e.line c
  screen :=
    if c = 8 then if 0 < e.line.length then e.screen.putchar 8 else e.screen
    else if e.line.length < cmdBufferSize - 1 then e.screen.putchar c else e.screen

/-- The ideal terminal after a string was printed. -/
def Terminal.print (l : List Byte) (t : Terminal) : Terminal := l.foldl (fun t c => t.putchar c) t

def Terminal.setcolor (color : Byte) (t : Terminal) : Terminal := { t with color }

/-- The ideal terminal after the prompt. -/
def prompted (t : Terminal) : Terminal :=
  let name := (t.setcolor (vgaEntryColor vgaColorLightRed vgaColorBlack)).print (chars "hekaterm")
  let symbol := (name.setcolor (vgaEntryColor vgaColorLightGrey vgaColorBlack)).print (chars "> ")
  symbol.setcolor t.color

/-- The editor after the prompt and the characters `cs`. -/
def typed (t : Terminal) (cs : List Byte) : Editor := cs.foldl Editor.type ⟨[], prompted t⟩

variable {v : Display} {t : Terminal} {s : Shell} {e : Editor} {c color : Byte} {cs line : List Byte} {p δ : ℕ}
  {execute : (ℕ → Byte) → Display → Display}

theorem terminalWrite_shows (l : List Byte) (h : Shows v t) :
    Shows (terminalWrite l v) (t.print l) := by
  induction l generalizing v t with
  | nil => exact h
  | cons c l ih => exact ih (terminalPutchar_shows h c).1

theorem terminalSetcolor_shows (color : Byte) (h : Shows v t) : Shows (terminalSetcolor color v) (t.setcolor color) :=
  (Op.shows (.setcolor color) h).1

theorem shellPrintPrompt_shows (h : Shows v t) : Shows (shellPrintPrompt v) (prompted t) := by
  obtain ⟨d, hwindow⟩ := h.window
  have hname := terminalWrite_shows (chars "hekaterm") (terminalSetcolor_shows (vgaEntryColor vgaColorLightRed vgaColorBlack) h)
  have hsymbol := terminalWrite_shows (chars "> ")
    (terminalSetcolor_shows (vgaEntryColor vgaColorLightGrey vgaColorBlack) hname)
  have hback := terminalSetcolor_shows v.terminalColor hsymbol
  rw [hwindow.color] at hback
  unfold shellPrintPrompt
  dsimp only
  rw [hwindow.color]
  exact hback

theorem setcolor_place (color : Byte) (t : Terminal) : (t.setcolor color).place = t.place := rfl

theorem print_place (l : List Byte) (hl : ∀ c ∈ l, Glyph c) (t : Terminal) : (t.print l).place = t.place + l.length := by
  induction l generalizing t with
  | nil => rfl
  | cons c l ih =>
    obtain ⟨hc, hl⟩ := List.forall_mem_cons.mp hl
    rw [Terminal.print, List.foldl_cons]
    exact (ih hl (t.putchar c)).trans (by rw [putchar_place hc, List.length_cons]; omega)

instance (c : Byte) : Decidable (Glyph c) := inferInstanceAs (Decidable (_ ∧ _))

/-- The prompt takes ten places. -/
theorem prompted_place (t : Terminal) : (prompted t).place = t.place + 10 := by
  unfold prompted
  dsimp only
  rw [setcolor_place, print_place _ (by decide), setcolor_place, print_place _ (by decide), setcolor_place]
  rfl

theorem setcolor_color (color : Byte) (t : Terminal) : (t.setcolor color).color = color := rfl

theorem prompted_color (t : Terminal) : (prompted t).color = t.color := by
  unfold prompted
  dsimp only
  rw [setcolor_color]

/-! ### The shell follows the editor -/

/-- The buffer holds the line of the editor, and the driver shows its screen. -/
structure Follows (s : Shell) (e : Editor) : Prop where
  index : s.cmdIndex = e.line.length
  bound : e.line.length ≤ 255
  buffer : ∀ k (hk : k < e.line.length), s.cmdBuffer k = e.line[k]
  shows : Shows s.display e.screen

theorem Follows.type (h : Follows s e) (hc : c ≠ 10) : Follows (shellAddChar execute c s) (e.type c) := by
  have hindex := h.index
  have hsize : cmdBufferSize - 1 = 255 := rfl
  unfold shellAddChar Editor.type editLine
  rw [if_neg hc]
  by_cases hback : c = 8
  · simp only [if_pos hback]
    by_cases hpos : 0 < e.line.length
    · have hpos' : s.cmdIndex > 0 := by omega
      rw [if_pos hpos, if_pos hpos']
      refine ⟨?_, ?_, fun k hk => ?_, (terminalPutchar_shows h.shows 8).1⟩
      · rw [List.length_dropLast, ← hindex]
      · rw [List.length_dropLast]
        exact (Nat.sub_le _ _).trans h.bound
      · rw [List.length_dropLast] at hk
        rw [List.getElem_dropLast]
        exact h.buffer k (by omega)
    · have hnil : e.line = [] := List.eq_nil_of_length_eq_zero (by omega)
      have hpos' : ¬s.cmdIndex > 0 := by omega
      rw [if_neg hpos, if_neg hpos', hnil, List.dropLast_nil]
      rw [hnil] at hindex
      exact ⟨hindex, Nat.zero_le _, fun k hk => absurd hk (Nat.not_lt_zero k), h.shows⟩
  · simp only [if_neg hback, hindex]
    by_cases hroom : e.line.length < cmdBufferSize - 1
    · simp only [if_pos hroom]
      refine ⟨?_, ?_, fun k hk => ?_, (terminalPutchar_shows h.shows c).1⟩
      · rw [List.length_append, List.length_singleton]
      · rw [List.length_append, List.length_singleton]
        omega
      · rw [List.length_append, List.length_singleton] at hk
        dsimp only
        by_cases hlast : k = e.line.length
        · subst hlast
          rw [Function.update_self, List.getElem_append_right (Nat.le_refl _)]
          simp
        · rw [Function.update_of_ne hlast, List.getElem_append_left (by omega)]
          exact h.buffer k (by omega)
    · simp only [if_neg hroom]
      exact h

theorem Follows.run (cs : List Byte) (hcs : ∀ c ∈ cs, c ≠ 10) (h : Follows s e) :
    Follows (cs.foldl (fun s c => shellAddChar execute c s) s) (cs.foldl Editor.type e) := by
  induction cs generalizing s e with
  | nil => exact h
  | cons c cs ih =>
    obtain ⟨hc, hcs⟩ := List.forall_mem_cons.mp hcs
    exact ih hcs (h.type hc)

theorem foldl_type_line (cs : List Byte) (e : Editor) : (cs.foldl Editor.type e).line = cs.foldl editLine e.line := by
  induction cs generalizing e with
  | nil => rfl
  | cons c cs ih => exact ih (e.type c)

theorem typed_line (t : Terminal) (cs : List Byte) : (typed t cs).line = edited cs := foldl_type_line cs _

/-! ### The screen of the editor -/

/-- The cursor is `δ` places behind the end of the line, and for `δ = 0` the line is what stands between the
place `p` and the cursor. -/
structure AheadBy (p : ℕ) (color : Byte) (δ : ℕ) (e : Editor) : Prop where
  place : e.screen.place = p + e.line.length + δ
  ink : e.screen.color = color
  cells : δ = 0 → ∀ k (hk : k < e.line.length), e.screen.cellAt (p + k) = some (vgaEntry e.line[k] color)

/-- The backspace that the screen ignores although the buffer does not. -/
def Stuck (c : Byte) (e : Editor) : Prop := c = 8 ∧ 0 < e.line.length ∧ e.screen.place % vgaX = 0

instance (c : Byte) (e : Editor) : Decidable (Stuck c e) := inferInstanceAs (Decidable (_ ∧ _))

theorem AheadBy.character (h : AheadBy p color δ e) (hc : Glyph c) : AheadBy p color δ (e.type c) := by
  have hplace := h.place
  unfold Editor.type editLine
  simp only [if_neg hc.2.2]
  by_cases hroom : e.line.length < cmdBufferSize - 1
  · simp only [if_pos hroom]
    refine ⟨?_, (putchar_color c e.screen).trans h.ink, fun hzero k hk => ?_⟩
    · rw [putchar_place hc, List.length_append, List.length_singleton]
      omega
    · rw [List.length_append, List.length_singleton] at hk
      dsimp only
      by_cases hlast : k = e.line.length
      · have hcursor : p + k = e.screen.place := by omega
        subst hlast
        rw [hcursor, putchar_cellAt_self hc, h.ink, List.getElem_append_right (Nat.le_refl _)]
        simp
      · have hold : k < e.line.length := by omega
        rw [putchar_cellAt_of_lt hc (by omega), List.getElem_append_left hold]
        exact h.cells hzero k hold
  · simp only [if_neg hroom]
    exact h

theorem AheadBy.backspace (h : AheadBy p color δ e) :
    AheadBy p color (δ + if Stuck 8 e then 1 else 0) (e.type 8) := by
  have hplace := h.place
  have hcolumn : e.screen.place % vgaX = e.screen.column := place_mod e.screen
  unfold Editor.type editLine
  simp only [↓reduceIte]
  by_cases hpos : 0 < e.line.length
  · rw [if_pos hpos]
    by_cases hzero : e.screen.place % vgaX = 0
    · have hstuck : Stuck 8 e := ⟨rfl, hpos, hzero⟩
      rw [if_pos hstuck, backspace_zero (by omega)]
      refine ⟨?_, h.ink, fun hfalse => absurd hfalse (Nat.succ_ne_zero δ)⟩
      rw [List.length_dropLast]
      dsimp only
      omega
    · have hfree : ¬Stuck 8 e := fun hstuck => hzero hstuck.2.2
      have hmove : 0 < (e.screen.column : ℕ) := by omega
      have hback := backspace_place hmove
      rw [if_neg hfree, Nat.add_zero]
      refine ⟨?_, (putchar_color 8 e.screen).trans h.ink, fun hsame k hk => ?_⟩
      · rw [List.length_dropLast]
        dsimp only
        omega
      · rw [List.length_dropLast] at hk
        have hold : k < e.line.length := by omega
        rw [backspace_cellAt hmove (by omega), List.getElem_dropLast]
        exact h.cells hsame k hold
  · have hfree : ¬Stuck 8 e := fun hstuck => hpos hstuck.2.1
    have hnil : e.line = [] := List.eq_nil_of_length_eq_zero (by omega)
    rw [if_neg hpos, if_neg hfree, Nat.add_zero, hnil, List.dropLast_nil]
    refine ⟨?_, h.ink, fun _ k hk => absurd hk (Nat.not_lt_zero k)⟩
    rw [hplace, hnil]

theorem AheadBy.type (h : AheadBy p color δ e) (hc : c ≠ 10 ∧ c ≠ 13) :
    AheadBy p color (δ + if Stuck c e then 1 else 0) (e.type c) := by
  by_cases hback : c = 8
  · subst hback
    exact h.backspace
  · have hfree : ¬Stuck c e := fun hstuck => hback hstuck.1
    rw [if_neg hfree, Nat.add_zero]
    exact h.character ⟨hc.1, hc.2, hback⟩

/-- No backspace meets a line that ends at the end of a row. -/
def NeverAtRowStart (cs : List Byte) : Prop :=
  ∀ pre post, cs = pre ++ 8 :: post → (edited pre).length = 0 ∨ (10 + (edited pre).length) % 80 ≠ 0

theorem neverAtRowStart_nil : NeverAtRowStart [] := by
  intro pre post hsplit
  cases pre <;> cases hsplit

theorem neverAtRowStart_append (cs : List Byte) (c : Byte) : NeverAtRowStart (cs ++ [c]) ↔
    NeverAtRowStart cs ∧ (c = 8 → (edited cs).length = 0 ∨ (10 + (edited cs).length) % 80 ≠ 0) := by
  constructor
  · intro h
    refine ⟨fun pre post hsplit => h pre (post ++ [c]) ?_, fun hc => h cs [] ?_⟩
    · rw [hsplit, List.append_assoc, List.cons_append]
    · rw [hc]
  · rintro ⟨h, hlast⟩ pre post hsplit
    rcases List.eq_nil_or_concat post with rfl | ⟨rest, last, rfl⟩
    · obtain ⟨rfl, hc⟩ := List.append_inj' hsplit rfl
      exact hlast (List.cons.inj hc).1
    · refine h pre rest ?_
      rw [List.concat_eq_append, ← List.cons_append, ← List.append_assoc] at hsplit
      exact (List.append_inj' hsplit rfl).1

/-- Once the screen is out of step it stays so. -/
theorem typed_ahead (t : Terminal) (hcolumn : (t.column : ℕ) = 0) (cs : List Byte) (hcs : ∀ c ∈ cs, c ≠ 10 ∧ c ≠ 13) :
    ∃ δ, AheadBy (t.place + 10) t.color δ (typed t cs) ∧ (δ = 0 ↔ NeverAtRowStart cs) := by
  induction cs using List.reverseRecOn with
  | nil =>
    have hstart : typed t [] = ⟨[], prompted t⟩ := rfl
    rw [hstart]
    refine ⟨0, ⟨?_, prompted_color t, fun _ k hk => absurd hk (Nat.not_lt_zero k)⟩, ?_⟩
    · rw [List.length_nil, Nat.add_zero, Nat.add_zero]
      exact prompted_place t
    · exact ⟨fun _ => neverAtRowStart_nil, fun _ => rfl⟩
  | append_singleton cs c ih =>
    obtain ⟨δ, hahead, hstep⟩ := ih fun c hc => hcs c (List.mem_append_left _ hc)
    have hc := hcs c (List.mem_append_right _ (List.mem_singleton.mpr rfl))
    have hnext : typed t (cs ++ [c]) = (typed t cs).type c := by
      rw [typed, List.foldl_append]
      rfl
    refine ⟨_, hnext ▸ hahead.type hc, ?_⟩
    have hline : (typed t cs).line.length = (edited cs).length := by rw [typed_line]
    have hplace := hahead.place
    have hstart : t.place = t.above.length * vgaX := by
      rw [Terminal.place, hcolumn, Nat.add_zero]
    have hrow : δ = 0 → ((typed t cs).screen.place % vgaX = 0 ↔ (10 + (edited cs).length) % 80 = 0) := by
      intro hzero
      rw [hplace, hstart, hline, hzero]
      simp only [vgaX]
      omega
    rw [neverAtRowStart_append, ← hstep]
    constructor
    · intro hsum
      split at hsum
      · omega
      · rename_i hfree
        have hzero : δ = 0 := by omega
        refine ⟨hzero, fun hback => ?_⟩
        have hrow := hrow hzero
        by_contra hmeets
        exact hfree ⟨hback, by omega, hrow.mpr (by omega)⟩
    · rintro ⟨hzero, hmeets⟩
      have hfree : ¬Stuck c (typed t cs) := by
        rintro ⟨hback, hpos, hend⟩
        have hend' := (hrow hzero).mp hend
        have hmeets := hmeets hback
        omega
      rw [if_neg hfree, hzero]

/-! ### The line on the screen -/

/-- The cells of video memory from the place `p` of the ideal terminal to the cursor show `line`, where the
driver has dropped `d` rows. -/
structure LineOnScreen (v : Display) (t : Terminal) (p : ℕ) (line : List Byte) : Prop where
  shown : ∃ d, Window d v t ∧ v.terminalRow * vgaX + v.terminalColumn + d * vgaX = p + line.length ∧
    ∀ k (hk : k < line.length), d * vgaX ≤ p + k ∧
      v.terminalBuffer (p + k - d * vgaX) = vgaEntry (line)[k] t.color

theorem Window.cursor_place {d : ℕ} (h : Window d v t) (hcolumn : v.terminalColumn = t.column) :
    v.terminalRow * vgaX + v.terminalColumn + d * vgaX = t.place := by
  rw [Terminal.place, h.row, hcolumn, Nat.add_mul]
  omega

/-- Less than 19 rows above the cursor, all cells are in video memory. -/
theorem Window.dropped_le {d q : ℕ} (h : Window d v t) (hq : q < t.place) (hnear : t.place < q + 19 * vgaX) :
    d ≤ q / vgaX ∧ q / vgaX ≤ t.above.length := by
  have hrow := h.row
  have hlength := h.length
  have hdiv := place_div t
  rw [page_length] at hlength
  refine ⟨?_, div_le_of_lt_place hq⟩
  rw [← hdiv] at hrow hlength
  simp only [vgaX, usableRows] at *
  omega

theorem AheadBy.lineOnScreen (h : AheadBy p color 0 e) (hbound : e.line.length ≤ 255) (hshows : Shows v e.screen) :
    LineOnScreen v e.screen p e.line := by
  obtain ⟨d, hwindow⟩ := hshows.window
  have hplace := h.place
  refine ⟨d, hwindow, ?_, fun k hk => ?_⟩
  · rw [hwindow.cursor_place hshows.column, hplace, Nat.add_zero]
  · have hnear : e.screen.place < p + k + 19 * vgaX := by
      simp only [vgaX]
      omega
    obtain ⟨hlow, hhigh⟩ := hwindow.dropped_le (by omega : p + k < e.screen.place) hnear
    have hcell := h.cells rfl k hk
    rw [hwindow.cellAt hlow hhigh] at hcell
    rw [h.ink]
    exact ⟨(Nat.le_div_iff_mul_le vgaX_pos).mp hlow, Option.some.inj hcell⟩

/-- The command line that the shell will execute, and the one that the user sees. -/
structure InStep (s : Shell) (t : Terminal) (p : ℕ) (line : List Byte) : Prop where
  bound : s.cmdIndex ≤ cmdBufferSize - 1
  buffer : (List.range s.cmdIndex).map s.cmdBuffer = line
  screen : LineOnScreen s.display t p line

theorem Follows.buffer_line (h : Follows s e) : (List.range s.cmdIndex).map s.cmdBuffer = e.line := by
  refine List.ext_getElem ?_ fun k hk hk' => ?_
  · rw [List.length_map, List.length_range, h.index]
  · rw [List.getElem_map, List.getElem_range]
    exact h.buffer k hk'

/-- The shell after the prompt and the characters `cs`. -/
def shellTyped (execute : (ℕ → Byte) → Display → Display) (buf : ℕ → Byte) (v : Display) (cs : List Byte) : Shell :=
  cs.foldl (fun s c => shellAddChar execute c s) ⟨buf, 0, shellPrintPrompt v⟩

theorem shellTyped_follows (buf : ℕ → Byte) (hshows : Shows v t) (hcs : ∀ c ∈ cs, c ≠ 10) :
    Follows (shellTyped execute buf v cs) (typed t cs) := by
  have hstart : Follows ⟨buf, 0, shellPrintPrompt v⟩ ⟨[], prompted t⟩ :=
    ⟨rfl, Nat.zero_le _, fun k hk => absurd hk (Nat.not_lt_zero k), shellPrintPrompt_shows hshows⟩
  exact hstart.run cs hcs

theorem inStep_iff (buf : ℕ → Byte) (hshows : Shows v t) (hcolumn : (t.column : ℕ) = 0)
    (hcs : ∀ c ∈ cs, c ≠ 10 ∧ c ≠ 13) :
    InStep (shellTyped execute buf v cs) (typed t cs).screen (prompted t).place (edited cs) ↔ NeverAtRowStart cs := by
  have hrun : Follows (shellTyped execute buf v cs) (typed t cs) := shellTyped_follows buf hshows fun c hc => (hcs c hc).1
  obtain ⟨δ, hahead, hstep⟩ := typed_ahead t hcolumn cs hcs
  rw [← hstep, prompted_place, ← typed_line t cs]
  generalize shellTyped execute buf v cs = s at hrun
  generalize typed t cs = e at hrun hahead
  constructor
  · intro hinstep
    obtain ⟨d, hwindow, hcursor, -⟩ := hinstep.screen
    rw [hwindow.cursor_place hrun.shows.column, hahead.place] at hcursor
    omega
  · rintro rfl
    refine ⟨?_, hrun.buffer_line, hahead.lineOnScreen hrun.bound hrun.shows⟩
    rw [hrun.index]
    exact hrun.bound

/-- The buffer always follows the edits, and the screen follows them until a backspace meets the end of a
row. -/
theorem shell_line_in_step_iff (execute : (ℕ → Byte) → Display → Display) (v : Display) (t : Terminal) (buf : ℕ → Byte)
    (cs : List Byte) (hshows : Shows v t) (hcolumn : (t.column : ℕ) = 0) (hcs : ∀ c ∈ cs, c ≠ 10 ∧ c ≠ 13) :
    let s := shellTyped execute buf v cs
    (s.cmdIndex ≤ 255 ∧ (List.range s.cmdIndex).map s.cmdBuffer = edited cs) ∧
      (InStep s (typed t cs).screen (prompted t).place (edited cs) ↔ NeverAtRowStart cs) := by
  have hrun : Follows (shellTyped execute buf v cs) (typed t cs) := shellTyped_follows buf hshows fun c hc => (hcs c hc).1
  refine ⟨⟨?_, ?_⟩, inStep_iff buf hshows hcolumn hcs⟩
  · rw [hrun.index]
    exact hrun.bound
  · rw [hrun.buffer_line, typed_line]

/-- A character, its removal and another one, on a cleared terminal. -/
theorem shell_line_in_step_iff_short : InStep (shellTyped (fun _ v => v) (fun _ => 0) (terminalClear .zero) [97, 8, 98])
    (typed .cleared [97, 8, 98]).screen (prompted .cleared).place [98] := by
  have hnever : NeverAtRowStart ([] ++ [97] ++ [8] ++ [98]) := by
    rw [neverAtRowStart_append, neverAtRowStart_append, neverAtRowStart_append]
    exact ⟨⟨⟨neverAtRowStart_nil, by decide⟩, by decide⟩, by decide⟩
  exact (shell_line_in_step_iff _ _ _ _ [97, 8, 98] (terminalClear_shows .zero).1 rfl (by decide)).2.mpr hnever

theorem edited_glyphs (l : List Byte) (hl : ∀ c ∈ l, c ≠ 8) (hlength : l.length ≤ 255) : edited l = l := by
  induction l using List.reverseRecOn with
  | nil => rfl
  | append_singleton l c ih =>
    rw [List.length_append, List.length_singleton] at hlength
    have hc := hl c (List.mem_append_right _ (List.mem_singleton.mpr rfl))
    have hroom : l.length < cmdBufferSize - 1 := by
      simp only [cmdBufferSize]
      omega
    rw [edited, List.foldl_append, List.foldl_cons, List.foldl_nil]
    change editLine (edited l) c = _
    rw [ih (fun c hc => hl c (List.mem_append_left _ hc)) (by omega), editLine, if_neg hc, if_pos hroom]

/-- Seventy characters fill the row behind the prompt, and the backspace after them takes the last one from
the buffer only. -/
theorem shell_line_in_step_fails : ∃ v t cs, Shows v t ∧ (t.column : ℕ) = 0 ∧ (∀ c ∈ cs, c ≠ 10 ∧ c ≠ 13) ∧
    ¬InStep (shellTyped (fun _ v => v) (fun _ => 0) v cs) (typed t cs).screen (prompted t).place (edited cs) := by
  have hline : edited (List.replicate 70 97) = List.replicate 70 97 :=
    edited_glyphs _ (fun c hc => by rw [List.eq_of_mem_replicate hc]; decide) (by rw [List.length_replicate]; decide)
  have hcs : ∀ c ∈ List.replicate 70 (97 : Byte) ++ [8], c ≠ 10 ∧ c ≠ 13 := by
    intro c hc
    rcases List.mem_append.mp hc with hc | hc
    · rw [List.eq_of_mem_replicate hc]
      decide
    · rw [List.mem_singleton.mp hc]
      decide
  refine ⟨terminalClear .zero, .cleared, List.replicate 70 97 ++ [8], (terminalClear_shows .zero).1, rfl, hcs, ?_⟩
  intro hinstep
  have hnever := (inStep_iff _ (terminalClear_shows .zero).1 rfl hcs).mp hinstep _ [] rfl
  rw [hline, List.length_replicate] at hnever
  exact absurd hnever (by decide)

end HekaOS.Vga
