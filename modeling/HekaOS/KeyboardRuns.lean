import HekaOS.CommandDesk

/-!
# The keyboard and the line

From the bytes of the keyboard to the commands: in every run, whatever keys are pressed and released, wherever
the user has scrolled to, and whatever the kernel does in between, the commands that are carried out are those of
the lines that were typed, and the screen is ready for the next one.
-/

namespace HekaOS.Sessions
open KernelMemory KernelTriples Tasks Vga

variable {m : Machine} {s u : Session} {d : Desk} {c : Byte} {cs : List Byte} {t : Terminal} {v : Display} {buf : ℕ → Byte}
  {n ptr left : ℕ}

/-! ### The line in the buffer -/

/-- A string ends at its terminator. -/
theorem readString_line (hzero : buf (ptr + n) = 0) (hchars : ∀ k < n, buf (ptr + k) ≠ 0) (hleft : n < left) :
    readString buf left ptr = some ((List.range n).map fun k => buf (ptr + k)) := by
  induction n generalizing ptr left with
  | zero =>
    obtain ⟨left, rfl⟩ := Nat.exists_eq_succ_of_ne_zero (Nat.ne_of_gt hleft)
    rw [Nat.add_zero] at hzero
    rw [readString, if_pos hzero]
    rfl
  | succ n ih =>
    obtain ⟨left, rfl⟩ := Nat.exists_eq_succ_of_ne_zero (show left ≠ 0 by omega)
    have hfirst : buf ptr ≠ 0 := hchars 0 (Nat.succ_pos n)
    have hshift : ∀ k, ptr + 1 + k = ptr + (k + 1) := fun k => by omega
    have hend : buf (ptr + 1 + n) = 0 := by
      rw [hshift]
      exact hzero
    have hothers : ∀ k < n, buf (ptr + 1 + k) ≠ 0 := by
      intro k hk
      rw [hshift]
      exact hchars (k + 1) (Nat.succ_lt_succ hk)
    have hrest : readString buf left (ptr + 1) = some ((List.range n).map fun k => buf (ptr + 1 + k)) :=
      ih hend hothers (Nat.lt_of_succ_lt_succ hleft)
    rw [readString, if_neg hfirst, hrest, List.range_succ_eq_map, List.map_cons, List.map_map]
    simp only [Option.map_some, Function.comp_def, hshift, Nat.add_zero]

theorem readString_cmd (hn : n ≤ 255) (hchars : ∀ k < n, buf k ≠ 0) :
    readString (Function.update buf n 0) cmdBufferSize 0 = some (lineOf buf n) := by
  have hsize : n < cmdBufferSize := by
    simp only [cmdBufferSize]
    omega
  have hkept : ∀ k < n, Function.update buf n 0 (0 + k) = buf k := by
    intro k hk
    rw [Nat.zero_add, Function.update_of_ne (by omega)]
  have hend : Function.update buf n 0 (0 + n) = 0 := by rw [Nat.zero_add, Function.update_self]
  have hothers : ∀ k < n, Function.update buf n 0 (0 + k) ≠ 0 := by
    intro k hk
    rw [hkept k hk]
    exact hchars k hk
  rw [readString_line hend hothers hsize, lineOf]
  refine congrArg some (List.map_congr_left ?_)
  intro k hk
  exact hkept k (List.mem_range.mp hk)

theorem edited_append (cs : List Byte) (c : Byte) : edited (cs ++ [c]) = editLine (edited cs) c := by
  rw [edited, List.foldl_append]
  rfl

theorem mem_edited (cs : List Byte) : ∀ c ∈ edited cs, c ∈ cs := by
  induction cs using List.reverseRecOn with
  | nil => exact fun c hc => hc
  | append_singleton cs a ih =>
    intro c hc
    rw [edited_append, editLine] at hc
    split at hc
    · exact List.mem_append_left _ (ih c (List.mem_of_mem_dropLast hc))
    · split at hc
      · rcases List.mem_append.mp hc with hc | hc
        · exact List.mem_append_left _ (ih c hc)
        · exact List.mem_append_right _ hc
      · exact List.mem_append_left _ (ih c hc)

/-! ### Between two lines -/

/-- The characters `cs` were typed behind the prompt on the terminal `t`, and the user may have scrolled back. -/
structure AtPrompt (s : Session) (t : Terminal) (cs : List Byte) : Prop where
  plain : ∀ c ∈ cs, c ≠ 10 ∧ c ≠ 0
  view : ∃ v, Follows { s.shell with display := v } (typed t cs) ∧ Tidy v ∧ Looking v s.shell.display

/-- The shell waits for a key. -/
def InOrder (s : Session) : Prop := ∃ t cs, AtPrompt s t cs

theorem AtPrompt.line (h : AtPrompt s t cs) : s.desk.line = edited cs := by
  obtain ⟨v, hfollows, -, -⟩ := h.view
  exact hfollows.buffer_line.trans (typed_line t cs)

theorem AtPrompt.scroll (h : AtPrompt s t cs) (delta : ℤ) : AtPrompt (s.onDisplay (terminalScrollLines delta)) t cs := by
  obtain ⟨v, hfollows, htidy, hlooking⟩ := h.view
  refine ⟨h.plain, v, hfollows, htidy, ?_⟩
  exact hlooking.scrollLines ⟨hfollows.shows, htidy⟩ delta

theorem AtPrompt.withExtended (h : AtPrompt s t cs) (extended : Bool) : AtPrompt { s with extended } t cs := ⟨h.plain, h.view⟩

/-- The terminal as it is without the scrolling. -/
structure Ready (s : Session) (t : Terminal) (cs : List Byte) : Prop where
  plain : ∀ c ∈ cs, c ≠ 10 ∧ c ≠ 0
  follows : Follows s.shell (typed t cs)
  tidy : Tidy s.shell.display

theorem onDisplay_shell (f : Display → Display) (s : Session) :
    (s.onDisplay f).shell = { s.shell with display := f s.shell.display } := rfl

theorem follows_display {x : Shell} {e : Editor} (h : Follows { x with display := v } e) {w : Display} (hw : Shows w e.screen) :
    Follows { x with display := w } e := ⟨h.index, h.bound, h.buffer, hw⟩

theorem AtPrompt.reset (h : AtPrompt s t cs) : Ready (s.onDisplay terminalScrollReset) t cs := by
  obtain ⟨v, hfollows, htidy, hlooking⟩ := h.view
  have hscreen := hlooking.reset ⟨hfollows.shows, htidy⟩
  have hback : Follows { s.shell with display := terminalScrollReset s.shell.display } (typed t cs) :=
    follows_display hfollows hscreen.shows
  refine ⟨h.plain, ?_, ?_⟩
  · rw [onDisplay_shell]
    exact hback
  · rw [onDisplay_shell]
    exact hscreen.tidy

theorem Ready.atPrompt (h : Ready s t cs) : AtPrompt s t cs := by
  have hscreen : OnScreen s.shell.display (typed t cs).screen := ⟨h.follows.shows, h.tidy⟩
  exact ⟨h.plain, s.shell.display, h.follows, h.tidy, hscreen.looking⟩

theorem shellAddChar_tidy (execute : (ℕ → Byte) → Display → Display) (hc : c ≠ 10) (x : Shell) (h : Tidy x.display) :
    Tidy (shellAddChar execute c x).display := by
  unfold shellAddChar
  rw [if_neg hc]
  split
  · split
    · exact h.putchar 8
    · exact h
  · split
    · exact h.putchar c
    · exact h

/-- A character is put into the line. -/
theorem Ready.type (h : Ready s t cs) (hc : c ≠ 10) (hzero : c ≠ 0) :
    Ready { s with shell := shellAddChar (fun _ v => v) c s.shell } t (cs ++ [c]) := by
  have htidy := shellAddChar_tidy (fun _ v => v) hc s.shell h.tidy
  refine ⟨?_, ?_, htidy⟩
  · intro a ha
    rcases List.mem_append.mp ha with ha | ha
    · exact h.plain a ha
    · rw [List.mem_singleton.mp ha]
      exact ⟨hc, hzero⟩
  · have hnext : typed t (cs ++ [c]) = (typed t cs).type c := by
      rw [typed, List.foldl_append]
      rfl
    rw [hnext]
    have hfollows : Follows (shellAddChar (fun _ v => v) c s.shell) ((typed t cs).type c) := h.follows.type hc
    exact hfollows

/-- The prompt is there, and the line is empty. -/
theorem ready_of_prompt (hindex : s.shell.cmdIndex = 0) (hscreen : OnScreen s.shell.display (prompted t)) : Ready s t [] :=
  ⟨fun _ hc => absurd hc List.not_mem_nil,
    ⟨hindex, Nat.zero_le _, fun k hk => absurd hk (Nat.not_lt_zero k), hscreen.shows⟩, hscreen.tidy⟩

/-! ### One byte -/

/-- A step from `s` ends as it does on the desk, with the shell in order. -/
structure Simulates (r : Kernel Session) (q : Kernel Desk) : Prop where
  desk : r.map Session.desk = q
  order : Ensures r InOrder

theorem simulates_error (e : Stop) : Simulates (.error e) (.error e) := ⟨rfl, ensures_error e⟩

theorem simulates_ok (hdesk : Agrees u d) (horder : InOrder u) : Simulates (.ok u) (.ok d) :=
  ⟨congrArg Except.ok hdesk.desk, ensures_ok horder⟩

theorem Ready.addChar (h : Ready s t cs) (hc : c ≠ 10) (hzero : c ≠ 0) : Simulates (Sessions.addChar m c s) (s.desk.type m c) := by
  have htyped := h.type hc hzero
  unfold Sessions.addChar Desk.type
  rw [if_neg hc, if_neg hc]
  refine simulates_ok ⟨rfl, rfl, ?_, rfl, rfl⟩ ⟨t, cs ++ [c], htyped.atPrompt⟩
  have hline := htyped.atPrompt.line
  rw [edited_append, ← h.atPrompt.line] at hline
  exact hline

theorem Ready.nonzero (h : Ready s t cs) : ∀ k < s.shell.cmdIndex, s.shell.cmdBuffer k ≠ 0 := by
  intro k hk
  rw [h.follows.index] at hk
  rw [h.follows.buffer k hk]
  have hmem : (typed t cs).line[k] ∈ edited cs := by
    rw [← typed_line t cs]
    exact List.getElem_mem hk
  exact (h.plain _ (mem_edited cs _ hmem)).2

/-- Enter carries out the line. -/
theorem Ready.enter (h : Ready s t cs) : Simulates (Sessions.addChar m 10 s) (s.desk.type m 10) := by
  have hbound : s.shell.cmdIndex ≤ 255 := h.follows.index ▸ h.follows.bound
  have hcmd := readString_cmd hbound h.nonzero
  obtain ⟨w, hw⟩ : ∃ w : Session, w = { s with shell :=
    ⟨Function.update s.shell.cmdBuffer s.shell.cmdIndex 0, s.shell.cmdIndex, terminalPutchar 10 s.shell.display⟩ } := ⟨_, rfl⟩
  have hscreen : OnScreen s.shell.display (typed t cs).screen := ⟨h.follows.shows, h.tidy⟩
  have hseen : Seen w.shell.display := by
    rw [hw]
    exact ⟨_, hscreen.putchar 10⟩
  -- the line is the same with the terminator behind it
  have hdesk : w.desk = s.desk := by
    have hline : lineOf w.shell.cmdBuffer w.shell.cmdIndex = lineOf s.shell.cmdBuffer s.shell.cmdIndex := by
      rw [hw]
      refine List.map_congr_left ?_
      intro k hk
      exact Function.update_of_ne (Nat.ne_of_lt (List.mem_range.mp hk)) _ _
    have hagrees : Agrees w s.desk := by
      rw [hw] at hline ⊢
      exact ⟨rfl, rfl, hline, rfl, rfl⟩
    exact hagrees.desk
  have hexecutes := shellExecute_executes (m := m) hseen s.desk.line
  unfold Sessions.addChar Desk.type
  rw [if_pos rfl, if_pos rfl]
  dsimp only
  rw [hcmd, ← hw]
  rw [hdesk] at hexecutes
  have hread : ended (some (lineOf s.shell.cmdBuffer s.shell.cmdIndex)) = .ok s.desk.line := rfl
  rw [hread, ok_bind]
  obtain ⟨hperform, hline, hprompt⟩ := hexecutes
  rw [← hperform]
  generalize shellExecute m s.desk.line w = r at hprompt
  cases r with
  | error e => exact simulates_error e
  | ok u =>
    obtain ⟨t', hscreen'⟩ := hprompt u rfl
    refine simulates_ok ⟨rfl, rfl, rfl, rfl, rfl⟩ ⟨t', [], ?_⟩
    have hready : Ready { u with shell := { u.shell with cmdIndex := 0 } } t' [] := ready_of_prompt rfl hscreen'
    exact hready.atPrompt

/-- A byte of the keyboard. -/
theorem irqKeyboard_reads (h : InOrder s) (m : Machine) (r : Reading) : Simulates (irqKeyboard m r s) (s.desk.read m r) := by
  obtain ⟨t, cs, h⟩ := h
  unfold irqKeyboard Desk.read
  by_cases hready : r.status &&& 1 = 0
  · rw [if_pos hready, if_pos hready]
    exact simulates_ok ⟨rfl, rfl, rfl, rfl, rfl⟩ ⟨t, cs, h⟩
  rw [if_neg hready, if_neg hready]
  by_cases hcode : r.scancode = 0xE0
  · rw [if_pos hcode, if_pos hcode]
    exact simulates_ok ⟨rfl, rfl, rfl, rfl, rfl⟩ ⟨t, cs, h.withExtended true⟩
  rw [if_neg hcode, if_neg hcode]
  have hextended : s.desk.extended = s.extended := rfl
  rw [hextended]
  by_cases hext : s.extended = true
  · rw [if_pos hext, if_pos hext]
    dsimp only
    have hoff := h.withExtended false
    split
    · split
      · exact simulates_ok ⟨rfl, rfl, rfl, rfl, rfl⟩ ⟨t, cs, hoff.scroll _⟩
      · exact simulates_ok ⟨rfl, rfl, rfl, rfl, rfl⟩ ⟨t, cs, hoff⟩
    · exact simulates_ok ⟨rfl, rfl, rfl, rfl, rfl⟩ ⟨t, cs, hoff⟩
  rw [if_neg hext, if_neg hext]
  by_cases hpress : r.scancode &&& 0x80 = 0
  · rw [if_pos hpress, if_pos hpress]
    have hback := h.reset
    have hkeymap : (s.onDisplay terminalScrollReset).activeKeymap = s.desk.activeKeymap := rfl
    have hdesk : (s.onDisplay terminalScrollReset).desk = s.desk := (onDisplay_agrees terminalScrollReset s).desk
    dsimp only
    rw [hkeymap]
    generalize (keymapTable s.desk.activeKeymap).getD r.scancode.toNat 0 = c
    by_cases hzero : c = 0
    · rw [if_neg (not_not_intro hzero), if_neg (not_not_intro hzero)]
      exact simulates_ok (onDisplay_agrees terminalScrollReset s) ⟨t, cs, hback.atPrompt⟩
    · rw [if_pos hzero, if_pos hzero, ← hdesk]
      by_cases henter : c = 10
      · rw [henter]
        exact hback.enter
      · exact hback.addChar henter hzero
  · rw [if_neg hpress, if_neg hpress]
    exact simulates_ok ⟨rfl, rfl, rfl, rfl, rfl⟩ ⟨t, cs, h⟩

/-! ### Runs -/

/-- What happens to a running machine: a byte comes from the keyboard, or the kernel does something else, with
messages to the log. -/
inductive Happening where
  | key (m : Machine) (r : Reading)
  | kernel (op : KOp) (messages : List Byte)

def Session.step (s : Session) : Happening → Kernel Session
  | .key m r => irqKeyboard m r s
  | .kernel op messages => do
    let tasks ← ended (op.run s.tasks)
    .ok { s with tasks, log := printString messages s.log }

def Desk.step (d : Desk) : Happening → Kernel Desk
  | .key m r => d.read m r
  | .kernel op messages => do
    let tasks ← ended (op.run d.tasks)
    .ok { d with tasks, log := printString messages d.log }

theorem step_simulates (h : InOrder s) (happening : Happening) : Simulates (s.step happening) (s.desk.step happening) := by
  cases happening with
  | key m r => exact irqKeyboard_reads h m r
  | kernel op messages =>
    obtain ⟨t, cs, h⟩ := h
    have htasks : s.desk.tasks = s.tasks := rfl
    unfold Session.step Desk.step
    dsimp only
    rw [htasks]
    cases op.run s.tasks with
    | none => exact simulates_error .spin
    | some tasks => exact simulates_ok ⟨rfl, rfl, rfl, rfl, rfl⟩ ⟨t, cs, h.plain, h.view⟩

/-- Both layouts have the newline on one key. -/
theorem Desk.read_newline {r : Reading} (hready : r.status &&& 1 ≠ 0) (hscancode : r.scancode = 0x1C)
    (hplain : d.extended = false) : d.read m r = d.type m 10 := by
  have hextended : ¬d.extended = true := by
    rw [hplain]
    exact Bool.false_ne_true
  have hcode : ¬r.scancode = 0xE0 := by
    rw [hscancode]
    decide
  have hpress : r.scancode &&& 0x80 = 0 := by
    rw [hscancode]
    decide
  have hkey : ∀ layout, (keymapTable layout).getD r.scancode.toNat 0 = 10 := by
    intro layout
    rw [hscancode]
    cases layout with
    | qwerty => decide
    | azerty => decide
  have hten : (10 : Byte) ≠ 0 := by decide
  unfold Desk.read
  rw [if_neg hready, if_neg hcode, if_neg hextended, if_pos hpress]
  dsimp only
  rw [hkey, if_pos hten]

end HekaOS.Sessions
