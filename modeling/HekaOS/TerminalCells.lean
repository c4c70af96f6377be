import HekaOS.VgaTerminal

/-!
# Places in the ideal terminal

The cells of the ideal terminal in reading order, up to the cursor. A printed character goes to the place
of the cursor, and the cursor goes on by one place, also at the end of a row.
-/

namespace HekaOS.Vga

variable {v : Display} {t : Terminal} {c : Byte} {d p q k : ℕ}

theorem vgaX_pos : 0 < vgaX := by decide

/-- The place of the cursor. -/
def Terminal.place (t : Terminal) : ℕ := t.above.length * vgaX + t.column

/-- The cell at a place. -/
def Terminal.cellAt (t : Terminal) (q : ℕ) : Option Cell :=
  (t.above ++ [t.line])[q / vgaX]?.map fun row => row ⟨q % vgaX, Nat.mod_lt q vgaX_pos⟩

/-- A character that is drawn. -/
def Glyph (c : Byte) : Prop := c ≠ 10 ∧ c ≠ 13 ∧ c ≠ 8

theorem place_div (t : Terminal) : t.place / vgaX = t.above.length := row_of_cell t.column.isLt

theorem place_mod (t : Terminal) : t.place % vgaX = t.column := by
  rw [Terminal.place, Nat.mul_comm, Nat.mul_add_mod, Nat.mod_eq_of_lt t.column.isLt]

/-- A cell in the row of the cursor. -/
theorem cellAt_line (h : q / vgaX = t.above.length) :
    t.cellAt q = some (t.line ⟨q % vgaX, Nat.mod_lt q vgaX_pos⟩) := by
  rw [Terminal.cellAt, h, List.getElem?_append_right (Nat.le_refl _), Nat.sub_self]
  rfl

/-- A cell above the row of the cursor. -/
theorem cellAt_above (h : q / vgaX < t.above.length) :
    t.cellAt q = t.above[q / vgaX]?.map fun row => row ⟨q % vgaX, Nat.mod_lt q vgaX_pos⟩ := by
  rw [Terminal.cellAt, List.getElem?_append_left h]

theorem div_le_of_lt_place (h : q < t.place) : q / vgaX ≤ t.above.length := by
  rw [← place_div]
  exact Nat.div_le_div_right (Nat.le_of_lt h)

theorem write_cellAt_of_ne (h : q ≠ t.place) (hrow : q / vgaX ≤ t.above.length) : (t.write c).cellAt q = t.cellAt q := by
  by_cases hline : q / vgaX = t.above.length
  · rw [cellAt_line hline, cellAt_line (t := t.write c) hline]
    congr 1
    apply Function.update_of_ne
    intro heq
    have hmod := congrArg Fin.val heq
    dsimp only at hmod
    refine h ?_
    rw [Terminal.place, ← hline, ← hmod]
    exact (Nat.div_add_mod' q vgaX).symm
  · have hlt : q / vgaX < t.above.length := by omega
    have hlt' : q / vgaX < (t.write c).above.length := hlt
    rw [cellAt_above hlt, cellAt_above hlt']
    rfl

theorem write_cellAt_self (c : Byte) (t : Terminal) : (t.write c).cellAt t.place = some (vgaEntry c t.color) := by
  rw [cellAt_line (t := t.write c) (place_div t)]
  congr 1
  have hcolumn : (⟨t.place % vgaX, Nat.mod_lt _ vgaX_pos⟩ : Fin vgaX) = t.column := Fin.ext (place_mod t)
  rw [hcolumn]
  exact Function.update_self _ _ _

/-- A new row leaves the cells above it alone. -/
theorem newline_cellAt (hrow : q / vgaX ≤ t.above.length) : t.newline.cellAt q = t.cellAt q := by
  have habove : t.newline.above = t.above ++ [t.line] := rfl
  have hlt : q / vgaX < t.newline.above.length := by
    rw [habove, List.length_append, List.length_singleton]
    omega
  rw [cellAt_above hlt, habove]
  rfl

theorem putchar_glyph (hc : Glyph c) : t.putchar c =
    if h : t.column + 1 < vgaX then { t.write c with column := ⟨t.column + 1, h⟩ } else (t.write c).newline := by
  rw [Terminal.putchar, if_neg hc.1, if_neg hc.2.1, if_neg hc.2.2]

/-- A drawn character is at the place where the cursor was, and the cursor behind it. -/
theorem putchar_place (hc : Glyph c) (t : Terminal) : (t.putchar c).place = t.place + 1 := by
  rw [putchar_glyph hc]
  split
  · rfl
  · have hlast : t.column + 1 = vgaX := by
      have hlt := t.column.isLt
      omega
    have hlength : (t.write c).newline.above.length = t.above.length + 1 := by
      rw [Terminal.newline, List.length_append, List.length_singleton]
      rfl
    have hzero : (((t.write c).newline.column : Fin vgaX) : ℕ) = 0 := rfl
    rw [Terminal.place, hlength, hzero, Terminal.place, Nat.succ_mul]
    omega

theorem putchar_color (c : Byte) (t : Terminal) : (t.putchar c).color = t.color := by
  unfold Terminal.putchar
  split_ifs <;> rfl

theorem putchar_cellAt_of_lt (hc : Glyph c) (hq : q < t.place) : (t.putchar c).cellAt q = t.cellAt q := by
  have hrow := div_le_of_lt_place hq
  rw [putchar_glyph hc]
  split
  · exact write_cellAt_of_ne (Nat.ne_of_lt hq) hrow
  · exact (newline_cellAt (t := t.write c) hrow).trans (write_cellAt_of_ne (Nat.ne_of_lt hq) hrow)

theorem putchar_cellAt_self (hc : Glyph c) (t : Terminal) : (t.putchar c).cellAt t.place = some (vgaEntry c t.color) := by
  rw [putchar_glyph hc]
  split
  · exact write_cellAt_self c t
  · exact (newline_cellAt (t := t.write c) (place_div t).le).trans (write_cellAt_self c t)

/-- A backspace does nothing in the first column. -/
theorem backspace_zero (h : (t.column : ℕ) = 0) : t.putchar 8 = t := by
  have hnl : ¬(8 : Byte) = 10 := by decide
  have hcr : ¬(8 : Byte) = 13 := by decide
  rw [Terminal.putchar, if_neg hnl, if_neg hcr, if_pos rfl, if_neg (by omega)]

theorem backspace_pos (h : 0 < (t.column : ℕ)) :
    t.putchar 8 = Terminal.write 32 { t with column := ⟨t.column - 1, by omega⟩ } := by
  have hnl : ¬(8 : Byte) = 10 := by decide
  have hcr : ¬(8 : Byte) = 13 := by decide
  rw [Terminal.putchar, if_neg hnl, if_neg hcr, if_pos rfl, if_pos h]

/-- Elsewhere the cursor goes back by one place, and the cells before it stay. -/
theorem backspace_place (h : 0 < (t.column : ℕ)) : (t.putchar 8).place + 1 = t.place := by
  rw [backspace_pos h]
  change t.above.length * vgaX + (t.column - 1) + 1 = t.above.length * vgaX + t.column
  omega

theorem backspace_cellAt (h : 0 < (t.column : ℕ)) (hq : q + 1 < t.place) : (t.putchar 8).cellAt q = t.cellAt q := by
  have hplace := backspace_place h
  have hrow : q / vgaX ≤ t.above.length := div_le_of_lt_place (Nat.lt_of_succ_lt hq)
  rw [backspace_pos h] at hplace ⊢
  have hne : q ≠ (Terminal.write 32 { t with column := ⟨t.column - 1, by omega⟩ }).place := by omega
  exact write_cellAt_of_ne hne hrow

/-- What the driver shows of a cell that is still in video memory. -/
theorem Window.cellAt (h : Window d v t) (hlow : d ≤ q / vgaX) (hhigh : q / vgaX ≤ t.above.length) :
    t.cellAt q = some (v.terminalBuffer (q - d * vgaX)) := by
  have hview := h.view
  have hrow := h.row
  have hshown := h.rows (q / vgaX - d) (by omega)
  have hsum : d + (q / vgaX - d) = q / vgaX := by omega
  rw [hsum] at hshown
  have hpage : t.page[q / vgaX]? = (t.above ++ [t.line])[q / vgaX]? := by
    rw [Terminal.page, List.append_cons, List.getElem?_append_left]
    rw [List.length_append, List.length_singleton]
    omega
  rw [Terminal.cellAt, ← hpage, hshown, Option.map_some, Display.rowAt]
  congr 2
  have hsplit := Nat.div_add_mod' q vgaX
  rw [Nat.sub_mul]
  have hle : d * vgaX ≤ q / vgaX * vgaX := Nat.mul_le_mul_right vgaX hlow
  dsimp only
  omega

end HekaOS.Vga
