import HekaOS.Printk

/-!
# What `printk` prints

The output of a format and its arguments as a text, next to the arguments it takes and the number that is
returned. `printk` puts exactly this text into the log.
-/

namespace HekaOS.Vga

/-- A text, the number of arguments taken for it, and what it adds to `count`. -/
structure Printout where
  text : List Byte
  taken : ℕ
  count : ℕ

def Printout.append (a b : Printout) : Printout := ⟨a.text ++ b.text, a.taken + b.taken, a.count + b.count⟩

/-- `%d` -/
def signedString (v : BitVec 32) : List Byte :=
  if v.toInt < 0 then 45 :: decimalString v.toInt.natAbs else decimalString v.toInt.natAbs

variable (e : PrintkCall)

/-- The output of a `%` with the character `c` behind it, where `word` is the next argument. -/
def conversionOutput (c : Byte) (word : BitVec 32) : Printout :=
  if c = 115 then
    let str := if word = 0 then chars "(null)" else e.strings word
    ⟨str, 1, str.length⟩
  else if c = 100 ∨ c = 105 then ⟨signedString word, 1, 1⟩
  else if c = 117 then ⟨decimalString word.toNat, 1, 1⟩
  else if c = 120 ∨ c = 112 then ⟨chars "0x" ++ hexNumeral word.toNat, 1, 1⟩
  else if c = 99 then ⟨[word.setWidth 8], 1, 1⟩
  else if c = 37 then ⟨[37], 0, 1⟩
  else ⟨[37, c], 0, 2⟩

/-- The output of a format, from the argument `taken` on. -/
def formatted : List Byte → ℕ → Printout
  | [], _ => ⟨[], 0, 0⟩
  | [c], _ => ⟨[c], 0, 1⟩
  | c :: d :: rest, taken =>
    if c = 37 then
      let out := conversionOutput e d (e.args taken)
      out.append (formatted rest (taken + out.taken))
    else (⟨[c], 0, 1⟩ : Printout).append (formatted (d :: rest) taken)

variable {e} {s t : PrintkState} {fmt rest : List Byte} {c d : Byte} {a b out : Printout} {g : KernelLog} {p n : ℕ}

theorem printString_append (l m : List Byte) (g : KernelLog) : printString (l ++ m) g = printString m (printString l g) :=
  List.foldl_append

theorem printHexString_eq (v : BitVec 32) (junk : ℕ → Byte) : printHexString v junk = some (chars "0x" ++ hexNumeral v.toNat) := by
  unfold printHexString
  by_cases hzero : v = 0
  · rw [hzero]
    rfl
  · rw [hexString_eq (by decide)]
    rfl

/-- `t` is `s` after the output of a piece of the format. -/
structure Printed (s t : PrintkState) (out : Printout) : Prop where
  log : t.log = printString out.text s.log
  taken : t.taken = s.taken + out.taken
  count : t.count = s.count + BitVec.ofNat 32 out.count

theorem Printed.refl (s : PrintkState) : Printed s s ⟨[], 0, 0⟩ := ⟨rfl, rfl, (BitVec.add_zero s.count).symm⟩

theorem Printed.trans {u : PrintkState} (h : Printed s t a) (h' : Printed t u b) : Printed s u (a.append b) := by
  refine ⟨?_, ?_, ?_⟩
  · rw [h'.log, h.log, Printout.append, printString_append]
  · rw [h'.taken, h.taken, Printout.append, Nat.add_assoc]
  · rw [h'.count, h.count, Printout.append, BitVec.add_assoc, ← BitVec.ofNat_add]

theorem printkConversion_printed (e : PrintkCall) (s : PrintkState) :
    Printed s (printkConversion e s) (conversionOutput e (e.mem s.format) (e.args s.taken)) := by
  unfold printkConversion conversionOutput
  dsimp only [PrintkState.vaArg, PrintkState.read]
  generalize e.mem s.format = c
  split
  · exact ⟨rfl, rfl, rfl⟩
  · split
    · refine ⟨?_, rfl, rfl⟩
      simp only [PrintkState.counted, PrintkState.printed, printInt, printIntString_signed]
      rfl
    · split
      · refine ⟨?_, rfl, rfl⟩
        simp only [PrintkState.counted, PrintkState.printed, printInt, printIntString_unsigned]
        rfl
      · split
        · refine ⟨?_, rfl, rfl⟩
          simp only [PrintkState.counted, PrintkState.printed, printHex, printHexString_eq]
          rfl
        · split
          · exact ⟨rfl, rfl, rfl⟩
          · split
            · exact ⟨rfl, rfl, rfl⟩
            · exact ⟨rfl, rfl, rfl⟩

/-- A character that is not `%` is printed. -/
theorem printkRound_plain_printed (h : e.mem s.format ≠ 37) : Printed s (printkRound e s) ⟨[e.mem s.format], 0, 1⟩ := by
  unfold printkRound
  dsimp only
  have hplain : e.mem s.read.format ≠ 37 := h
  rw [if_neg hplain]
  exact ⟨rfl, rfl, rfl⟩

theorem printkRound_conversion_printed (h : e.mem s.format = 37) :
    Printed s (printkRound e s) (conversionOutput e (e.mem (s.format + 1)) (e.args s.taken)) := by
  unfold printkRound
  dsimp only
  have hconv : e.mem s.read.format = 37 := h
  rw [if_pos hconv]
  obtain ⟨hlog, htaken, hcount⟩ := printkConversion_printed e { s.read with format := s.format + 1 }
  exact ⟨hlog, htaken, hcount⟩

/-- The loop from `s` on ends, and has printed `out` by then. -/
def Finishes (e : PrintkCall) (n : ℕ) (s : PrintkState) (out : Printout) : Prop :=
  ∀ fuel, n < fuel → (printkLoop e fuel s).2 = true ∧ Printed s (printkLoop e fuel s).1 out

theorem finishes_end (hzero : e.mem s.format = 0) : Finishes e 0 s ⟨[], 0, 0⟩ := by
  intro fuel hfuel
  obtain ⟨fuel, rfl⟩ := Nat.exists_eq_succ_of_ne_zero (Nat.ne_of_gt hfuel)
  rw [printkLoop, if_pos hzero]
  exact ⟨rfl, (Printed.refl s).log, rfl, (Printed.refl s).count⟩

/-- One round, and then the rest. -/
theorem Finishes.round {m : ℕ} (hmem : e.mem s.format ≠ 0) (hround : Printed s.read (printkRound e s.read) a)
    (hrest : Finishes e n (printkRound e s.read) b) (hm : n < m) : Finishes e m s (a.append b) := by
  intro fuel hfuel
  obtain ⟨fuel, rfl⟩ := Nat.exists_eq_succ_of_ne_zero (show fuel ≠ 0 by omega)
  obtain ⟨hends, hprinted⟩ := hrest fuel (by omega)
  rw [printkLoop, if_neg hmem]
  obtain ⟨hlog, htaken, hcount⟩ := hround.trans hprinted
  exact ⟨hends, hlog, htaken, hcount⟩

theorem finishes_formatted (hfmt : FormatAt e.mem s.format fmt) (hpaired : loneAtEnd fmt = false) :
    Finishes e fmt.length s (formatted e fmt s.taken) := by
  induction fmt using loneAtEnd.induct generalizing s with
  | case1 => exact finishes_end hfmt.terminator
  | case2 c =>
    have hplain : c ≠ 37 := by simpa [loneAtEnd] using hpaired
    obtain ⟨hc, hmem⟩ := hfmt.head
    have hscan : Scanned s.read (printkRound e s.read) s.format (s.format + 1) :=
      printkRound_plain (by rw [← hc] at hplain; exact hplain)
    have hround : Printed s.read (printkRound e s.read) ⟨[e.mem s.format], 0, 1⟩ :=
      printkRound_plain_printed (by rw [← hc] at hplain; exact hplain)
    have hzero : e.mem (printkRound e s.read).format = 0 := by
      rw [hscan.format]
      exact hfmt.terminator
    have hall := Finishes.round (by rw [hc]; exact hmem) hround (finishes_end hzero) Nat.zero_lt_one
    rw [hc] at hall
    exact hall
  | case3 d rest ih =>
    obtain ⟨hc, hmem⟩ := hfmt.head
    obtain ⟨hd, -⟩ := hfmt.tail.head
    rw [loneAtEnd, if_pos rfl] at hpaired
    have hscan : Scanned s.read (printkRound e s.read) (s.format + 1) (s.format + 2) := printkRound_conversion hc
    have hround : Printed s.read (printkRound e s.read) (conversionOutput e d (e.args s.taken)) := by
      rw [← hd]
      exact printkRound_conversion_printed hc
    have hnext : FormatAt e.mem (printkRound e s.read).format rest := by
      rw [hscan.format]
      exact hfmt.tail.tail
    have htaken : (printkRound e s.read).taken = s.taken + (conversionOutput e d (e.args s.taken)).taken := hround.taken
    have hrest := ih hnext hpaired
    rw [htaken] at hrest
    have hall := Finishes.round (m := (37 :: d :: rest).length) (by rw [hc]; exact hmem) hround hrest
      (by simp only [List.length_cons]; omega)
    rw [formatted, if_pos rfl]
    exact hall
  | case4 c d rest hc ih =>
    rw [loneAtEnd, if_neg hc] at hpaired
    obtain ⟨hhead, hmem⟩ := hfmt.head
    have hplain : e.mem s.read.format ≠ 37 := by
      change e.mem s.format ≠ 37
      rw [hhead]
      exact hc
    have hscan : Scanned s.read (printkRound e s.read) s.format (s.format + 1) := printkRound_plain hplain
    have hround : Printed s.read (printkRound e s.read) ⟨[c], 0, 1⟩ := by
      rw [← hhead]
      exact printkRound_plain_printed hplain
    have hnext : FormatAt e.mem (printkRound e s.read).format (d :: rest) := by
      rw [hscan.format]
      exact hfmt.tail
    have hrest := ih hnext hpaired
    rw [hround.taken] at hrest
    have hall := Finishes.round (m := (c :: d :: rest).length) (by rw [hhead]; exact hmem) hround hrest
      (by simp only [List.length_cons]; omega)
    rw [formatted, if_neg hc]
    exact hall

/-- For every format in which each `%` has a character behind it, `printk` ends, the newest bytes of the log are
its output, as many arguments are taken as there are conversions for them, and the output is counted with one
for each number. -/
theorem printk_output (e : PrintkCall) (p : ℕ) (fmt : List Byte) (g : KernelLog) (l : List Byte) (fuel : ℕ)
    (hfmt : FormatAt e.mem p fmt) (heven : Even (percentsAtEnd fmt).length) (hg : g.Holds l) (hfuel : fmt.length < fuel) :
    let r := printk e fuel p g
    r.2 = true ∧ r.1.log.Holds (l ++ (formatted e fmt 0).text) ∧ r.1.taken = (formatted e fmt 0).taken ∧
      r.1.count = BitVec.ofNat 32 (formatted e fmt 0).count := by
  have hpaired : loneAtEnd fmt = false := by
    rw [← Nat.not_odd_iff_even, ← loneAtEnd_iff, Bool.not_eq_true] at heven
    exact heven
  have hstart : FormatAt e.mem (⟨p, 0, 0, g, []⟩ : PrintkState).format fmt := hfmt
  obtain ⟨hends, hprinted⟩ := finishes_formatted hstart hpaired fuel hfuel
  refine ⟨hends, ?_, ?_, ?_⟩
  · rw [printk, hprinted.log]
    exact printString_holds hg _
  · rw [printk, hprinted.taken]
    exact Nat.zero_add _
  · rw [printk, hprinted.count]
    exact BitVec.zero_add _

/-- The format `%s: %c%%` at the address 0, with the string `pid` and the character `7`. -/
def sampleCall : PrintkCall := ⟨fun a => (chars "%s: %c%%").getD a 0, fun n => if n = 0 then 1 else 55, fun _ => chars "pid", fun _ => 0⟩

theorem printk_output_sample : (printk sampleCall 9 0 .boot).1.log.Holds (chars "pid: 7%") ∧ (printk sampleCall 9 0 .boot).1.taken = 2 := by
  have hfmt : FormatAt sampleCall.mem 0 (chars "%s: %c%%") := by
    refine ⟨?_, by decide⟩
    decide
  obtain ⟨-, hlog, htaken, -⟩ := printk_output sampleCall 0 (chars "%s: %c%%") .boot [] 9 hfmt (by decide) KernelLog.holds_boot (by decide)
  exact ⟨hlog, htaken⟩

end HekaOS.Vga
