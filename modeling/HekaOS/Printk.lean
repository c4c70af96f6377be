import Mathlib.Data.List.DropRight
import HekaOS.NumberOutput

/-!
# The format string of `printk`

The loop of `printk` over memory, with the addresses that it reads the format from. The arguments are a
sequence of words and the strings that they point to.
-/

namespace HekaOS.Vga

/-- What a call works on: memory, the words behind the format, the strings at addresses, and whatever the
local buffers hold. -/
structure PrintkCall where
  mem : ℕ → Byte
  args : ℕ → BitVec 32
  strings : BitVec 32 → List Byte
  junk : ℕ → Byte

/-- The format pointer, the number of arguments taken, `count`, the log, and the reads of the format. -/
structure PrintkState where
  format : ℕ
  taken : ℕ
  count : BitVec 32
  log : KernelLog
  reads : List ℕ

variable (e : PrintkCall)

/-- `*format` -/
def PrintkState.read (s : PrintkState) : PrintkState := { s with reads := s.reads ++ [s.format] }

def PrintkState.putchar (c : Byte) (s : PrintkState) : PrintkState := { s with log := printkPutchar c s.log }

def PrintkState.counted (n : ℕ) (s : PrintkState) : PrintkState := { s with count := s.count + BitVec.ofNat 32 n }

/-- `va_arg`, which also moves on to the next argument. -/
def PrintkState.vaArg (s : PrintkState) : BitVec 32 × PrintkState := (e.args s.taken, { s with taken := s.taken + 1 })

/-- What a conversion prints with `print_int` and `print_hex`, whose buffers never run over. -/
def PrintkState.printed (f : KernelLog → Option KernelLog) (s : PrintkState) : PrintkState :=
  { s with log := (f s.log).getD s.log }

/-- The `switch` on the character behind `%`. -/
def printkConversion (s : PrintkState) : PrintkState :=
  let c := e.mem s.format
  let s := s.read
  if c = 115 then -- 's'
    let (p, s) := s.vaArg e
    let str := if p = 0 then chars "(null)" else e.strings p
    { s with log := printString str s.log }.counted str.length
  else if c = 100 ∨ c = 105 then -- 'd', 'i'
    let (val, s) := s.vaArg e
    (s.printed (printInt val 10 true e.junk)).counted 1
  else if c = 117 then -- 'u'
    let (val, s) := s.vaArg e
    (s.printed (printInt val 10 false e.junk)).counted 1
  else if c = 120 ∨ c = 112 then -- 'x', 'p'
    let (val, s) := s.vaArg e
    (s.printed (printHex val e.junk)).counted 1
  else if c = 99 then -- 'c'
    let (val, s) := s.vaArg e
    (s.putchar (val.setWidth 8)).counted 1
  else if c = 37 then (s.putchar 37).counted 1
  else ((s.putchar 37).read.putchar c).counted 2

/-- The body of the loop. -/
def printkRound (s : PrintkState) : PrintkState :=
  let s := s.read
  let s :=
    if e.mem s.format = 37 then printkConversion e { s with format := s.format + 1 }
    else (s.read.putchar (e.mem s.format)).counted 1
  { s with format := s.format + 1 }

/-- `while (*format)`, for as many rounds as there is fuel, and whether the loop has ended. -/
def printkLoop : ℕ → PrintkState → PrintkState × Bool
  | 0, s => (s, false)
  | fuel + 1, s => if e.mem s.format = 0 then (s.read, true) else printkLoop fuel (printkRound e s.read)

/-- `printk` up to the end of its loop. -/
def printk (fuel format : ℕ) (g : KernelLog) : PrintkState × Bool := printkLoop e fuel ⟨format, 0, 0, g, []⟩

variable {e} {s : PrintkState} {fmt rest : List Byte} {c d : Byte} {p n r fuel : ℕ} {g : KernelLog}

/-- The string `fmt` stands at `p`, with its terminator behind it. -/
structure FormatAt (mem : ℕ → Byte) (p : ℕ) (fmt : List Byte) : Prop where
  char : ∀ k (hk : k < fmt.length), mem (p + k) = fmt[k] ∧ fmt[k] ≠ 0
  terminator : mem (p + fmt.length) = 0

theorem FormatAt.head (h : FormatAt e.mem p (c :: rest)) : e.mem p = c ∧ c ≠ 0 := h.char 0 (Nat.succ_pos _)

theorem FormatAt.tail (h : FormatAt e.mem p (c :: rest)) : FormatAt e.mem (p + 1) rest := by
  refine ⟨fun k hk => ?_, ?_⟩
  · have hchar := h.char (k + 1) (Nat.succ_lt_succ hk)
    rw [Nat.add_assoc, Nat.add_comm 1 k]
    exact hchar
  · have hend := h.terminator
    rw [List.length_cons] at hend
    rw [Nat.add_assoc, Nat.add_comm 1]
    exact hend

/-- `s'` is `s` after reads of the format at `s.format` up to `last`, with the pointer at `format`. -/
structure Scanned (s s' : PrintkState) (last format : ℕ) : Prop where
  format : s'.format = format
  reads : ∃ rs, s'.reads = s.reads ++ rs ∧ ∀ r ∈ rs, s.format ≤ r ∧ r ≤ last

theorem printkConversion_scanned (e : PrintkCall) (s : PrintkState) : Scanned s (printkConversion e s) s.format s.format := by
  have hone : ∃ rs, s.reads ++ [s.format] = s.reads ++ rs ∧ ∀ r ∈ rs, s.format ≤ r ∧ r ≤ s.format := by
    refine ⟨_, rfl, fun r hr => ?_⟩
    rw [List.mem_singleton.mp hr]
    exact ⟨Nat.le_refl _, Nat.le_refl _⟩
  have htwo : ∃ rs, s.reads ++ [s.format] ++ [s.format] = s.reads ++ rs ∧ ∀ r ∈ rs, s.format ≤ r ∧ r ≤ s.format := by
    refine ⟨[s.format] ++ [s.format], List.append_assoc _ _ _, fun r hr => ?_⟩
    obtain rfl : r = s.format := by simpa using hr
    exact ⟨Nat.le_refl _, Nat.le_refl _⟩
  unfold printkConversion
  dsimp only
  split_ifs
  · exact ⟨rfl, hone⟩
  · exact ⟨rfl, hone⟩
  · exact ⟨rfl, hone⟩
  · exact ⟨rfl, hone⟩
  · exact ⟨rfl, hone⟩
  · exact ⟨rfl, hone⟩
  · exact ⟨rfl, hone⟩
  · exact ⟨rfl, htwo⟩

/-- A character that is not `%` is read and passed. -/
theorem printkRound_plain (h : e.mem s.format ≠ 37) : Scanned s (printkRound e s) s.format (s.format + 1) := by
  unfold printkRound
  dsimp only
  have hplain : e.mem s.read.format ≠ 37 := h
  rw [if_neg hplain]
  refine ⟨rfl, [s.format] ++ [s.format], List.append_assoc _ _ _, fun r hr => ?_⟩
  obtain rfl : r = s.format := by simpa using hr
  exact ⟨Nat.le_refl _, Nat.le_refl _⟩

/-- A `%` is passed together with the character behind it, whatever that is. -/
theorem printkRound_conversion (h : e.mem s.format = 37) : Scanned s (printkRound e s) (s.format + 1) (s.format + 2) := by
  unfold printkRound
  dsimp only
  have hconv : e.mem s.read.format = 37 := h
  rw [if_pos hconv]
  obtain ⟨hformat, rs, hreads, hall⟩ := printkConversion_scanned e { s.read with format := s.format + 1 }
  refine ⟨?_, [s.format] ++ rs, ?_, fun r hr => ?_⟩
  · exact congrArg (· + 1) hformat
  · refine hreads.trans ?_
    exact List.append_assoc _ _ _
  · rcases List.mem_append.mp hr with hr | hr
    · rw [List.mem_singleton.mp hr]
      exact ⟨Nat.le_refl _, Nat.le_succ _⟩
    · obtain ⟨hlow, hhigh⟩ := hall r hr
      exact ⟨Nat.le_of_succ_le hlow, hhigh⟩

/-- The string, read from the left with every `%` taken together with the next character, ends with
a `%` that has none. -/
def loneAtEnd : List Byte → Bool
  | [] => false
  | [c] => c == 37
  | c :: d :: rest => if c = 37 then loneAtEnd rest else loneAtEnd (d :: rest)

/-- The reads of the format so far lie between `p` and `last`. -/
def ReadsWithin (p last : ℕ) (s : PrintkState) : Prop := ∀ r ∈ s.reads, p ≤ r ∧ r ≤ last

/-- The rest of the loop from `s` on ends, and all reads lie between `p` and `last`. -/
structure Inside (e : PrintkCall) (p last : ℕ) (s : PrintkState) : Prop where
  ends : ∃ fuel, (printkLoop e fuel s).2 = true
  reads : ∀ fuel, ReadsWithin p last (printkLoop e fuel s).1

variable {last hi next : ℕ}

theorem ReadsWithin.read (h : ReadsWithin p last s) (hlow : p ≤ s.format) (hhigh : s.format ≤ last) :
    ReadsWithin p last s.read := by
  intro r hr
  rcases List.mem_append.mp hr with hr | hr
  · exact h r hr
  · rw [List.mem_singleton.mp hr]
    exact ⟨hlow, hhigh⟩

theorem ReadsWithin.scanned {s' : PrintkState} (h : ReadsWithin p last s) (hscan : Scanned s s' hi next)
    (hlow : p ≤ s.format) (hhigh : hi ≤ last) : ReadsWithin p last s' := by
  obtain ⟨rs, hreads, hall⟩ := hscan.reads
  intro r hr
  rw [hreads] at hr
  rcases List.mem_append.mp hr with hr | hr
  · exact h r hr
  · obtain ⟨hlow', hhigh'⟩ := hall r hr
    exact ⟨hlow.trans hlow', hhigh'.trans hhigh⟩

/-- At the terminator the loop ends. -/
theorem inside_end (hzero : e.mem s.format = 0) (hlow : p ≤ s.format) (hhigh : s.format ≤ last)
    (h : ReadsWithin p last s) : Inside e p last s := by
  refine ⟨⟨1, ?_⟩, fun fuel => ?_⟩
  · rw [printkLoop, if_pos hzero]
  · cases fuel with
    | zero => exact h
    | succ fuel =>
      rw [printkLoop, if_pos hzero]
      exact h.read hlow hhigh

/-- One round, and then the rest. -/
theorem Inside.round (hmem : e.mem s.format ≠ 0) (h : ReadsWithin p last s)
    (hrest : Inside e p last (printkRound e s.read)) : Inside e p last s := by
  obtain ⟨⟨fuel, hends⟩, hreads⟩ := hrest
  refine ⟨⟨fuel + 1, ?_⟩, fun fuel => ?_⟩
  · rw [printkLoop, if_neg hmem]
    exact hends
  · cases fuel with
    | zero => exact h
    | succ fuel =>
      rw [printkLoop, if_neg hmem]
      exact hreads fuel

/-- A plain character, behind which the rest stays inside. -/
theorem inside_plain (hfmt : FormatAt e.mem s.format (c :: rest)) (hplain : c ≠ 37) (hlow : p ≤ s.format)
    (hlast : s.format + (c :: rest).length = last) (h : ReadsWithin p last s)
    (ih : ∀ t : PrintkState, FormatAt e.mem t.format rest → p ≤ t.format → t.format + rest.length = last →
      ReadsWithin p last t → Inside e p last t) : Inside e p last s := by
  obtain ⟨hc, hmem⟩ := hfmt.head
  rw [List.length_cons] at hlast
  have hscan : Scanned s.read (printkRound e s.read) s.format (s.format + 1) :=
    printkRound_plain (by rw [← hc] at hplain; exact hplain)
  have hnext := hscan.format
  have hread := h.read hlow (by omega)
  refine .round (by rw [hc]; exact hmem) h (ih _ ?_ ?_ ?_ ?_)
  · rw [hnext]
    exact hfmt.tail
  · omega
  · omega
  · exact hread.scanned hscan hlow (by omega)

/-- A string in which every `%` has a character behind it. -/
theorem inside_of_paired (hfmt : FormatAt e.mem s.format fmt) (hpaired : loneAtEnd fmt = false)
    (hlow : p ≤ s.format) (hlast : s.format + fmt.length = last) (h : ReadsWithin p last s) :
    Inside e p last s := by
  induction fmt using loneAtEnd.induct generalizing s with
  | case1 =>
    have hzero : e.mem s.format = 0 := hfmt.terminator
    exact inside_end hzero hlow (by rw [← hlast]; exact Nat.le_add_right _ _) h
  | case2 c =>
    have hplain : c ≠ 37 := by simpa [loneAtEnd] using hpaired
    refine inside_plain hfmt hplain hlow hlast h fun t ht hlow' hlast' h' => ?_
    have hzero : e.mem t.format = 0 := ht.terminator
    exact inside_end hzero hlow' (by rw [← hlast']; exact Nat.le_add_right _ _) h'
  | case3 d rest ih =>
    obtain ⟨hc, hmem⟩ := hfmt.head
    rw [loneAtEnd, if_pos rfl] at hpaired
    simp only [List.length_cons] at hlast
    have hscan : Scanned s.read (printkRound e s.read) (s.format + 1) (s.format + 2) := printkRound_conversion hc
    have hnext := hscan.format
    have hread := h.read hlow (by omega)
    refine .round (by rw [hc]; exact hmem) h (ih ?_ hpaired ?_ ?_ ?_)
    · rw [hnext]
      exact hfmt.tail.tail
    · omega
    · omega
    · exact hread.scanned hscan hlow (by omega)
  | case4 c d rest hc ih =>
    rw [loneAtEnd, if_neg hc] at hpaired
    exact inside_plain hfmt hc hlow hlast h fun t ht hlow' hlast' h' => ih ht hpaired hlow' hlast' h'

/-- What was read stays read. -/
theorem printkRound_reads (hr : r ∈ s.reads) : r ∈ (printkRound e s).reads := by
  have hscan : ∃ hi next, Scanned s (printkRound e s) hi next := by
    by_cases hc : e.mem s.format = 37
    · exact ⟨_, _, printkRound_conversion hc⟩
    · exact ⟨_, _, printkRound_plain hc⟩
  obtain ⟨hi, next, hscan⟩ := hscan
  obtain ⟨rs, hreads, -⟩ := hscan.reads
  rw [hreads]
  exact List.mem_append_left rs hr

/-- One round reads the character at the format pointer. -/
theorem mem_reads_one (e : PrintkCall) (s : PrintkState) : s.format ∈ (printkLoop e 1 s).1.reads := by
  have hread : s.format ∈ s.read.reads := List.mem_append_right _ (List.mem_singleton.mpr rfl)
  rw [printkLoop]
  split
  · exact hread
  · exact printkRound_reads hread

theorem mem_reads_round {q : ℕ} (hmem : e.mem s.format ≠ 0)
    (hq : ∃ fuel, q ∈ (printkLoop e fuel (printkRound e s.read)).1.reads) : ∃ fuel, q ∈ (printkLoop e fuel s).1.reads := by
  obtain ⟨fuel, hq⟩ := hq
  refine ⟨fuel + 1, ?_⟩
  rw [printkLoop, if_neg hmem]
  exact hq

/-- The loop reads behind the terminator of a string that ends with a lone `%`. -/
theorem outside_of_lone (hfmt : FormatAt e.mem s.format fmt) (hlone : loneAtEnd fmt = true) :
    ∃ fuel, s.format + fmt.length + 1 ∈ (printkLoop e fuel s).1.reads := by
  induction fmt using loneAtEnd.induct generalizing s with
  | case1 => exact absurd hlone Bool.false_ne_true
  | case2 c =>
    obtain ⟨hc, hmem⟩ := hfmt.head
    have hpercent : c = 37 := by simpa [loneAtEnd] using hlone
    have hscan : Scanned s.read (printkRound e s.read) (s.format + 1) (s.format + 2) :=
      printkRound_conversion (hc.trans hpercent)
    have hread := mem_reads_one e (printkRound e s.read)
    rw [hscan.format] at hread
    exact mem_reads_round (by rw [hc]; exact hmem) ⟨1, hread⟩
  | case3 d rest ih =>
    obtain ⟨hc, hmem⟩ := hfmt.head
    rw [loneAtEnd, if_pos rfl] at hlone
    have hscan : Scanned s.read (printkRound e s.read) (s.format + 1) (s.format + 2) := printkRound_conversion hc
    have hnext : FormatAt e.mem (printkRound e s.read).format rest := by
      rw [hscan.format]
      exact hfmt.tail.tail
    obtain ⟨fuel, hread⟩ := ih hnext hlone
    rw [hscan.format] at hread
    refine mem_reads_round (by rw [hc]; exact hmem) ⟨fuel, ?_⟩
    have hsum : s.format + (37 :: d :: rest).length + 1 = s.format + 2 + rest.length + 1 := by
      simp only [List.length_cons]
      omega
    rw [hsum]
    exact hread
  | case4 c d rest hplain ih =>
    obtain ⟨hc, hmem⟩ := hfmt.head
    rw [loneAtEnd, if_neg hplain] at hlone
    have hscan : Scanned s.read (printkRound e s.read) s.format (s.format + 1) :=
      printkRound_plain (by rw [← hc] at hplain; exact hplain)
    have hnext : FormatAt e.mem (printkRound e s.read).format (d :: rest) := by
      rw [hscan.format]
      exact hfmt.tail
    obtain ⟨fuel, hread⟩ := ih hnext hlone
    rw [hscan.format] at hread
    refine mem_reads_round (by rw [hc]; exact hmem) ⟨fuel, ?_⟩
    have hsum : s.format + (c :: d :: rest).length + 1 = s.format + 1 + (d :: rest).length + 1 := by
      simp only [List.length_cons]
      omega
    rw [hsum]
    exact hread

/-! ### The condition -/

/-- The `%` at the end of a string. -/
def percentsAtEnd (fmt : List Byte) : List Byte := fmt.rtakeWhile fun c => c == 37

theorem rtakeWhile_cons (q : Byte → Bool) (c : Byte) (l : List Byte) :
    (c :: l).rtakeWhile q = if (∀ d ∈ l, q d = true) ∧ q c = true then c :: l else l.rtakeWhile q := by
  induction l using List.reverseRecOn with
  | nil =>
    have hone := List.rtakeWhile_concat q [] c
    rw [List.nil_append, List.rtakeWhile_nil, List.nil_append] at hone
    simpa using hone
  | append_singleton l x ih =>
    rw [← List.cons_append, List.rtakeWhile_concat, List.rtakeWhile_concat, ih]
    by_cases hx : q x = true
    · rw [if_pos hx, if_pos hx]
      by_cases hall : (∀ d ∈ l, q d = true) ∧ q c = true
      · rw [if_pos hall, if_pos]
        refine ⟨fun d hd => ?_, hall.2⟩
        rcases List.mem_append.mp hd with hd | hd
        · exact hall.1 d hd
        · rw [List.mem_singleton.mp hd]
          exact hx
      · rw [if_neg hall, if_neg]
        exact fun hall' => hall ⟨fun d hd => hall'.1 d (List.mem_append_left _ hd), hall'.2⟩
    · rw [if_neg hx, if_neg hx, if_neg]
      exact fun hall' => hx (hall'.1 x (List.mem_append_right _ (List.mem_singleton.mpr rfl)))

/-- A pair in front does not change whether their number is odd. -/
theorem percentsAtEnd_pair (d : Byte) (rest : List Byte) :
    Odd (percentsAtEnd (37 :: d :: rest)).length ↔ Odd (percentsAtEnd rest).length := by
  unfold percentsAtEnd
  rw [rtakeWhile_cons, rtakeWhile_cons]
  by_cases hd : (∀ x ∈ rest, (x == 37) = true) ∧ (d == 37) = true
  · have hall : (∀ x ∈ d :: rest, (x == 37) = true) ∧ ((37 : Byte) == 37) = true :=
      ⟨List.forall_mem_cons.mpr ⟨hd.2, hd.1⟩, rfl⟩
    have hrest : rest.rtakeWhile (fun c => c == 37) = rest := List.rtakeWhile_eq_self_iff.mpr hd.1
    rw [if_pos hall, hrest, List.length_cons, List.length_cons, Nat.odd_add_one, Nat.odd_add_one, not_not]
  · have hall : ¬((∀ x ∈ d :: rest, (x == 37) = true) ∧ ((37 : Byte) == 37) = true) := by
      rintro ⟨hall, -⟩
      obtain ⟨hhead, htail⟩ := List.forall_mem_cons.mp hall
      exact hd ⟨htail, hhead⟩
    rw [if_neg hall, if_neg hd]

/-- A plain character in front does not change their number. -/
theorem percentsAtEnd_plain (hc : c ≠ 37) (l : List Byte) : percentsAtEnd (c :: l) = percentsAtEnd l := by
  unfold percentsAtEnd
  rw [rtakeWhile_cons, if_neg]
  exact fun hall => hc (by simpa using hall.2)

theorem loneAtEnd_iff (fmt : List Byte) : loneAtEnd fmt = true ↔ Odd (percentsAtEnd fmt).length := by
  induction fmt using loneAtEnd.induct with
  | case1 => decide
  | case2 c =>
    by_cases hc : c = 37
    · rw [hc]
      decide
    · have hnone : ¬Odd (percentsAtEnd []).length := by decide
      rw [percentsAtEnd_plain hc, loneAtEnd, beq_iff_eq]
      exact ⟨fun heq => absurd heq hc, fun hodd => absurd hodd hnone⟩
  | case3 d rest ih =>
    rw [loneAtEnd, if_pos rfl, percentsAtEnd_pair]
    exact ih
  | case4 c d rest hc ih =>
    rw [loneAtEnd, if_neg hc, percentsAtEnd_plain hc]
    exact ih

/-- The call of `printk` reads the format and its terminator only, and returns. -/
structure PrintkInside (e : PrintkCall) (p : ℕ) (fmt : List Byte) (g : KernelLog) : Prop where
  ends : ∃ fuel, (printk e fuel p g).2 = true
  reads : ∀ fuel, ReadsWithin p (p + fmt.length) (printk e fuel p g).1

/-- A `%` without a character behind it takes the terminator for that character, and the loop goes on
behind it. -/
theorem printk_inside_iff (e : PrintkCall) (p : ℕ) (fmt : List Byte) (g : KernelLog) (hfmt : FormatAt e.mem p fmt) :
    PrintkInside e p fmt g ↔ Even (percentsAtEnd fmt).length := by
  rw [← Nat.not_odd_iff_even, ← loneAtEnd_iff]
  constructor
  · intro hinside hlone
    have hstart : FormatAt e.mem (⟨p, 0, 0, g, []⟩ : PrintkState).format fmt := hfmt
    obtain ⟨fuel, hread⟩ := outside_of_lone hstart hlone
    have hle := (hinside.reads fuel _ hread).2
    change p + fmt.length + 1 ≤ p + fmt.length at hle
    omega
  · intro hpaired
    rw [Bool.not_eq_true] at hpaired
    have hstart : Inside e p (p + fmt.length) ⟨p, 0, 0, g, []⟩ :=
      inside_of_paired hfmt hpaired (Nat.le_refl p) rfl fun r hr => nomatch hr
    exact ⟨hstart.ends, hstart.reads⟩

/-- A call whose words and strings are empty. -/
def plainCall (mem : ℕ → Byte) : PrintkCall := ⟨mem, fun _ => 0, fun _ => [], fun _ => 0⟩

/-- A format that lies at the address 0, with zeros behind it. -/
theorem formatAt_getD {fmt : List Byte} (h : ∀ c ∈ fmt, c ≠ 0) : FormatAt (fun a => fmt.getD a 0) 0 fmt := by
  refine ⟨fun k hk => ?_, ?_⟩
  · rw [Nat.zero_add, List.getD_eq_getElem _ _ hk]
    exact ⟨rfl, h _ (List.getElem_mem hk)⟩
  · rw [Nat.zero_add]
    exact List.getD_eq_default _ _ (Nat.le_refl _)

/-- The format `%d%%` at the address 0: a conversion that takes an argument and a doubled `%` behind it. -/
theorem printk_inside_iff_conversions :
    PrintkInside (plainCall fun a => [37, 100, 37, 37].getD a 0) 0 [37, 100, 37, 37] .boot :=
  (printk_inside_iff _ 0 [37, 100, 37, 37] .boot (formatAt_getD (by decide))).mpr (by decide)

/-- The format `%` at the address 0: the byte behind its terminator is read. -/
theorem printk_inside_fails : ∃ e p fmt g, FormatAt (PrintkCall.mem e) p fmt ∧ ¬PrintkInside e p fmt g := by
  refine ⟨plainCall fun a => [37].getD a 0, 0, [37], .boot, formatAt_getD (by decide), fun hinside => ?_⟩
  have hread : 2 ∈ (printkLoop (plainCall fun a => [37].getD a 0) 2 ⟨0, 0, 0, .boot, []⟩).1.reads := by decide
  exact absurd (hinside.reads 2 2 hread).2 (by decide)

end HekaOS.Vga
