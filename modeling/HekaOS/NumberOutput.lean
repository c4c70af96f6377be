import Mathlib.Data.List.GetD
import Mathlib.Tactic.IntervalCases
import HekaOS.KernelLog
import HekaOS.ShellNumbers

/-!
# Numbers on the screen and in the log

`print_int`, `print_hex`, `terminal_write_uint` and `terminal_write_hex` fill a local buffer from its end,
`ep_fmt_uint` a temporary from its start. A store outside of the buffer is an error here.
-/

namespace HekaOS.Vga
open Numerals

/-- `HEX_DIGITS` -/
def hexDigits : List Byte := chars "0123456789abcdef"

/-- `"0123456789abcdef"[d]` -/
def hexChar (d : ℕ) : Byte := hexDigits.getD d 0

/-- `'0' + d` -/
def digitChar (d : ℕ) : Byte := BitVec.ofNat 8 (48 + d)

/-- `*--ptr = c` -/
def pushBack (c : Byte) : ℕ × (ℕ → Byte) → Option (ℕ × (ℕ → Byte))
  | (0, _) => none
  | (ptr + 1, buf) => some (ptr, Function.update buf ptr c)

/-- `while (value > 0) { *--ptr = digits[value % base]; value /= base; }`, from `ptr` on. -/
def digitLoop (char : ℕ → Byte) (base : ℕ) : ℕ → ℕ → (ℕ → Byte) → Option (ℕ × (ℕ → Byte))
  | 0, value, buf => if value > 0 then none else some (0, buf)
  | ptr + 1, value, buf =>
    if value > 0 then digitLoop char base ptr (value / base) (Function.update buf ptr (char (value % base)))
    else some (ptr + 1, buf)

/-- The string at `ptr` in a buffer of `left` bytes from there on. -/
def readString (buf : ℕ → Byte) : ℕ → ℕ → Option (List Byte)
  | 0, _ => none
  | left + 1, ptr => if buf ptr = 0 then some [] else (readString buf left (ptr + 1)).map (buf ptr :: ·)

/-- `ptr = buffer + sizeof (buffer) - 1` and `*ptr = '\\0'`, over whatever the buffer holds. -/
def terminated (size : ℕ) (junk : ℕ → Byte) : ℕ × (ℕ → Byte) := (size - 1, Function.update junk (size - 1) 0)

/-- The digits of `print_int` and `terminal_write_uint`, where zero is a case of its own. -/
def putDigits (char : ℕ → Byte) (base value : ℕ) (start : ℕ × (ℕ → Byte)) : Option (ℕ × (ℕ → Byte)) :=
  if value = 0 then pushBack 48 start else digitLoop char base start.1 value start.2

/-- `if (negative) *--ptr = '-';` -/
def putSign (negative : Bool) (filled : ℕ × (ℕ → Byte)) : Option (ℕ × (ℕ → Byte)) :=
  if negative then pushBack 45 filled else some filled

/-- The string that `print_int` passes to `print_string`; its buffer has 32 bytes. -/
def printIntString (value : BitVec 32) (base : ℕ) (isSigned : Bool) (junk : ℕ → Byte) : Option (List Byte) := do
  let negative := isSigned && value.slt 0
  let uvalue := if negative then -(value + 1) + 1 else value
  let filled ← putDigits hexChar base uvalue.toNat (terminated 32 junk)
  let (ptr, buf) ← putSign negative filled
  readString buf (32 - ptr) ptr

def printInt (value : BitVec 32) (base : ℕ) (isSigned : Bool) (junk : ℕ → Byte) (g : KernelLog) : Option KernelLog :=
  (printIntString value base isSigned junk).map fun str => printString str g

/-- The characters behind `0x` in `print_hex` and `terminal_write_hex`, with a buffer of `size` bytes. -/
def hexString (size : ℕ) (value : BitVec 32) (junk : ℕ → Byte) : Option (List Byte) :=
  if value = 0 then some [48]
  else do
    let start := terminated size junk
    let (ptr, buf) ← digitLoop hexChar 16 start.1 value.toNat start.2
    readString buf (size - ptr) ptr

/-- What `print_hex` prints. -/
def printHexString (value : BitVec 32) (junk : ℕ → Byte) : Option (List Byte) :=
  (hexString 16 value junk).map (chars "0x" ++ ·)

def printHex (value : BitVec 32) (junk : ℕ → Byte) (g : KernelLog) : Option KernelLog :=
  (printHexString value junk).map fun str => printString str g

/-- What `terminal_write_uint` writes; its buffer has 11 bytes. -/
def terminalWriteUintString (value : BitVec 32) (junk : ℕ → Byte) : Option (List Byte) := do
  let (ptr, buf) ← putDigits digitChar 10 value.toNat (terminated 11 junk)
  readString buf (11 - ptr) ptr

def terminalWriteUint (value : BitVec 32) (junk : ℕ → Byte) (v : Display) : Option Display :=
  (terminalWriteUintString value junk).map fun str => terminalWrite str v

/-- What `terminal_write_hex` writes; its buffer has 9 bytes. -/
def terminalWriteHexString (value : BitVec 32) (junk : ℕ → Byte) : Option (List Byte) :=
  (hexString 9 value junk).map (chars "0x" ++ ·)

def terminalWriteHex (value : BitVec 32) (junk : ℕ → Byte) (v : Display) : Option Display :=
  (terminalWriteHexString value junk).map fun str => terminalWrite str v

/-- The loop of `ep_fmt_uint` that fills `tmp`, with the room that is left in it. -/
def tmpLoop : ℕ → ℕ → ℕ → (ℕ → Byte) → Option (ℕ × (ℕ → Byte))
  | 0, n, v, tmp => if v ≠ 0 then none else some (n, tmp)
  | room + 1, n, v, tmp =>
    if v ≠ 0 then tmpLoop room (n + 1) (v / 10) (Function.update tmp n (digitChar (v % 10))) else some (n, tmp)

/-- The buffer behind `buf` and the number that is returned; `tmp` has 10 bytes. -/
def epFmtUint (buf : ℕ → Byte) (v : BitVec 32) (junk : ℕ → Byte) : Option ((ℕ → Byte) × ℕ) :=
  if v = 0 then some (Function.update buf 0 48, 1)
  else do
    let (n, tmp) ← tmpLoop 10 0 v.toNat junk
    some ((List.range n).foldl (fun buf i => Function.update buf i (tmp (n - 1 - i))) buf, n)

variable {v : BitVec 32} {buf junk tmp : ℕ → Byte} {str : List Byte} {char : ℕ → Byte} {base size ptr value n d left : ℕ}
  {c : Byte}

/-! ### The buffers -/

theorem readString_update_of_lt (h : d < ptr) (left : ℕ) :
    readString (Function.update buf d c) left ptr = readString buf left ptr := by
  induction left generalizing ptr with
  | zero => rfl
  | succ left ih =>
    rw [readString, readString, Function.update_of_ne (by omega), ih (by omega)]

/-- A character is put in front of a string. -/
theorem readString_push (hc : c ≠ 0) (h : readString buf left (ptr + 1) = some str) :
    readString (Function.update buf ptr c) (left + 1) ptr = some (c :: str) := by
  rw [readString, Function.update_self, if_neg hc, readString_update_of_lt (Nat.lt_succ_self ptr), h]
  rfl

theorem readString_terminated (hsize : 0 < size) (junk : ℕ → Byte) :
    readString (terminated size junk).2 (size - (terminated size junk).1) (terminated size junk).1 = some [] := by
  have hone : size - (size - 1) = 0 + 1 := by omega
  dsimp only [terminated]
  rw [hone, readString, Function.update_self, if_pos rfl]

theorem pushBack_string (hc : c ≠ 0) (hptr : 0 < ptr) (hle : ptr ≤ size)
    (h : readString buf (size - ptr) ptr = some str) :
    ∃ buf', pushBack c (ptr, buf) = some (ptr - 1, buf') ∧
      readString buf' (size - (ptr - 1)) (ptr - 1) = some (c :: str) := by
  obtain ⟨ptr, rfl⟩ := Nat.exists_eq_succ_of_ne_zero hptr.ne'
  refine ⟨Function.update buf ptr c, rfl, ?_⟩
  have hleft : size - (ptr.succ - 1) = size - ptr.succ + 1 := by omega
  rw [hleft]
  exact readString_push hc h

/-- The loop puts the digits of a number in front of the string, if there is room for them. -/
theorem digitLoop_string (hbase : 1 < base) (hchar : ∀ d < base, char d ≠ 0) (hle : ptr ≤ size)
    (hroom : (Nat.digits base value).length ≤ ptr) (h : readString buf (size - ptr) ptr = some str) :
    ∃ buf', digitLoop char base ptr value buf = some (ptr - (Nat.digits base value).length, buf') ∧
      readString buf' (size - (ptr - (Nat.digits base value).length)) (ptr - (Nat.digits base value).length) =
        some ((Nat.digits base value).reverse.map char ++ str) := by
  induction ptr generalizing value buf str with
  | zero =>
    have hnil : Nat.digits base value = [] := List.eq_nil_of_length_eq_zero (Nat.le_zero.mp hroom)
    have hzero : value = 0 := Nat.digits_eq_nil_iff_eq_zero.mp hnil
    rw [digitLoop, hzero, if_neg (Nat.lt_irrefl 0), Nat.digits_zero]
    exact ⟨buf, rfl, h⟩
  | succ ptr ih =>
    rw [digitLoop]
    by_cases hzero : value = 0
    · rw [hzero, if_neg (Nat.lt_irrefl 0), Nat.digits_zero]
      exact ⟨buf, rfl, h⟩
    · have hpos : 0 < value := Nat.pos_of_ne_zero hzero
      have hdigits : Nat.digits base value = value % base :: Nat.digits base (value / base) := Nat.digits_def' hbase hpos
      rw [hdigits, List.length_cons] at hroom
      have hleft : size - ptr = size - (ptr + 1) + 1 := by omega
      have hpushed := readString_push (hchar _ (Nat.mod_lt value (by omega))) h
      rw [← hleft] at hpushed
      have hroom' : (Nat.digits base (value / base)).length ≤ ptr := Nat.le_of_succ_le_succ hroom
      obtain ⟨buf', hloop, hread⟩ := ih (by omega) hroom' hpushed
      refine ⟨buf', ?_, ?_⟩
      · rw [if_pos hpos, hloop, hdigits, List.length_cons, Nat.add_sub_add_right]
      · rw [hdigits, List.length_cons, Nat.add_sub_add_right, hread, List.reverse_cons, List.map_append, List.append_assoc]
        rfl

/-- A number in front of an empty string, where zero is written as one digit. -/
def numeralString (char : ℕ → Byte) (base n : ℕ) : List Byte := (numeral base n).map char

/-- The decimal digits of a number. -/
def decimalString (n : ℕ) : List Byte := numeralString digitChar 10 n

/-- The hexadecimal digits of a number. -/
def hexNumeral (n : ℕ) : List Byte := numeralString hexChar 16 n

theorem numeralString_of_pos (h : n ≠ 0) : numeralString char base n = (Nat.digits base n).reverse.map char := by
  rw [numeralString, numeral_of_pos h]

theorem hexChar_eq_digitChar (h : d < 10) : hexChar d = digitChar d := by
  interval_cases d <;> rfl

theorem digitChar_ne_zero (h : d < 10) : digitChar d ≠ 0 := by
  interval_cases d <;> decide

theorem hexChar_ne_zero (h : d < 16) : hexChar d ≠ 0 := by
  interval_cases d <;> decide

/-- Both decimal loops write the same digits. -/
theorem numeralString_hexChar (n : ℕ) : numeralString hexChar 10 n = decimalString n :=
  List.map_congr_left fun _ hd => hexChar_eq_digitChar (numeral_lt (by decide) hd)

/-- The digits fill the end of the buffer, and at least one byte in front of them is left. -/
theorem fill_string (hbase : 1 < base) (hchar : ∀ d < base, char d ≠ 0) (hzero : char 0 = 48)
    (hsize : 1 < size) (hn : n < base ^ (size - 1)) (junk : ℕ → Byte) :
    ∃ ptr buf, putDigits char base n (terminated size junk) = some (ptr, buf) ∧
      ptr + (numeral base n).length + 1 = size ∧ readString buf (size - ptr) ptr = some (numeralString char base n) := by
  have hpos : 0 < size := by omega
  have hroom : 0 < size - 1 := by omega
  have hle : size - 1 ≤ size := Nat.sub_le _ _
  have hempty := readString_terminated hpos junk
  unfold putDigits
  by_cases hn0 : n = 0
  · obtain ⟨buf, hpush, hread⟩ := pushBack_string (by decide : (48 : Byte) ≠ 0) hroom hle hempty
    refine ⟨_, buf, by rw [if_pos hn0]; exact hpush, ?_, ?_⟩
    · rw [hn0, numeral, if_pos rfl, List.length_singleton]
      omega
    · rw [hread, hn0, numeralString, numeral, if_pos rfl, List.map_singleton, hzero]
  · have hlength : (Nat.digits base n).length ≤ size - 1 := (Nat.digits_length_le_iff hbase n).mpr hn
    obtain ⟨buf, hloop, hread⟩ := digitLoop_string hbase hchar hle hlength hempty
    refine ⟨_, buf, by rw [if_neg hn0]; exact hloop, ?_, ?_⟩
    · rw [numeral_of_pos hn0, List.length_reverse]
      omega
    · rw [hread, numeralString_of_pos hn0, List.append_nil]

/-! ### The functions -/

theorem eq_zero_iff (v : BitVec 32) : v = 0 ↔ v.toNat = 0 := by
  constructor
  · rintro rfl
    rfl
  · intro h
    exact BitVec.eq_of_toNat_eq h

theorem toNat_lt_pow {k : ℕ} (v : BitVec 32) (hk : 2 ^ 32 ≤ base ^ k) : v.toNat < base ^ k :=
  Nat.lt_of_lt_of_le v.isLt hk

/-- The digits of a 32-bit number in the buffer of `print_int`, which leaves room for a sign. -/
theorem printInt_filled (u : BitVec 32) (junk : ℕ → Byte) :
    ∃ ptr buf, putDigits hexChar 10 u.toNat (terminated 32 junk) = some (ptr, buf) ∧
      0 < ptr ∧ ptr ≤ 32 ∧ readString buf (32 - ptr) ptr = some (decimalString u.toNat) := by
  have hchar : ∀ d < 10, hexChar d ≠ 0 := fun d hd => hexChar_ne_zero (by omega)
  obtain ⟨ptr, buf, hfill, hptr, hread⟩ := fill_string (by decide) hchar rfl (by decide : 1 < 32)
    (@toNat_lt_pow 10 _ u (by decide)) junk
  have hlength : (numeral 10 u.toNat).length ≤ 10 :=
    numeral_length_le (by decide) (by decide) (toNat_lt_pow u (by decide))
  rw [numeralString_hexChar] at hread
  exact ⟨ptr, buf, hfill, by omega, by omega, hread⟩

theorem printIntString_unsigned (v : BitVec 32) (junk : ℕ → Byte) :
    printIntString v 10 false junk = some (decimalString v.toNat) := by
  obtain ⟨ptr, buf, hfill, -, -, hread⟩ := printInt_filled v junk
  unfold printIntString
  simp only [Bool.false_and, Bool.false_eq_true, ↓reduceIte, hfill, putSign, Option.bind_eq_bind, Option.bind_some]
  exact hread

/-- The negation in two steps does not overflow, also for the least number. -/
theorem negated_toNat (hneg : v.toInt < 0) : (-(v + 1) + 1).toNat = v.toInt.natAbs := by
  have hminus : -(v + 1) + 1 = -v := by
    rw [BitVec.neg_add, BitVec.sub_eq_add_neg, BitVec.add_assoc]
    simp
  rw [hminus, BitVec.toNat_neg]
  have hint := BitVec.toInt_eq_toNat_cond v
  have hlt := v.isLt
  split at hint
  · omega
  · omega

theorem printIntString_signed (v : BitVec 32) (junk : ℕ → Byte) : printIntString v 10 true junk =
    some (if v.toInt < 0 then 45 :: decimalString v.toInt.natAbs else decimalString v.toInt.natAbs) := by
  by_cases hneg : v.toInt < 0
  · obtain ⟨ptr, buf, hfill, hpos, hle, hread⟩ := printInt_filled (-(v + 1) + 1) junk
    obtain ⟨buf', hpush, hread'⟩ := pushBack_string (by decide : (45 : Byte) ≠ 0) hpos hle hread
    have hslt : v.slt 0 = true := by simpa [BitVec.slt] using hneg
    rw [if_pos hneg, ← negated_toNat hneg, ← hread']
    unfold printIntString
    simp only [hslt, Bool.true_and, ↓reduceIte, hfill, putSign, hpush, Option.bind_eq_bind, Option.bind_some]
  · have hslt : v.slt 0 = false := by simpa [BitVec.slt] using hneg
    have hsame : printIntString v 10 true junk = printIntString v 10 false junk := by
      unfold printIntString
      rw [hslt]
      rfl
    have habs : v.toInt.natAbs = v.toNat := by
      have hint := BitVec.toInt_eq_toNat_cond v
      have hlt := v.isLt
      split at hint
      · omega
      · omega
    rw [hsame, printIntString_unsigned, habs, if_neg hneg]

theorem terminalWriteUintString_eq (v : BitVec 32) (junk : ℕ → Byte) :
    terminalWriteUintString v junk = some (decimalString v.toNat) := by
  obtain ⟨ptr, buf, hfill, -, hread⟩ := fill_string (by decide) (fun d hd => digitChar_ne_zero hd) rfl
    (by decide : 1 < 11) (@toNat_lt_pow 10 _ v (by decide)) junk
  unfold terminalWriteUintString
  simp only [hfill, Option.bind_eq_bind, Option.bind_some]
  exact hread

/-- Eight digits and the terminator fit the smaller one of the buffers. -/
theorem hexString_eq (hsize : 8 < size) (v : BitVec 32) (junk : ℕ → Byte) :
    hexString size v junk = some (hexNumeral v.toNat) := by
  have hpow : 2 ^ 32 ≤ 16 ^ (size - 1) := by
    have height : 2 ^ 32 = 16 ^ 8 := by decide
    rw [height]
    exact Nat.pow_le_pow_right (by decide) (by omega)
  obtain ⟨ptr, buf, hfill, -, hread⟩ := fill_string (by decide) (fun d hd => hexChar_ne_zero hd) rfl
    (by omega : 1 < size) (toNat_lt_pow v hpow) junk
  unfold hexString
  by_cases hzero : v = 0
  · rw [if_pos hzero, hzero]
    rfl
  · rw [putDigits, if_neg (mt (eq_zero_iff v).mpr hzero)] at hfill
    rw [if_neg hzero]
    simp only [hfill, Option.bind_eq_bind, Option.bind_some]
    exact hread

/-- `tmp` gets the digits, least digit first. -/
theorem tmpLoop_eq {room value : ℕ} (hroom : (Nat.digits 10 value).length ≤ room) (n : ℕ) (tmp : ℕ → Byte) :
    ∃ tmp', tmpLoop room n value tmp = some (n + (Nat.digits 10 value).length, tmp') ∧
      ∀ k, tmp' k = if n ≤ k then ((Nat.digits 10 value).map digitChar).getD (k - n) (tmp k) else tmp k := by
  induction room generalizing value n tmp with
  | zero =>
    have hnil : Nat.digits 10 value = [] := List.eq_nil_of_length_eq_zero (Nat.le_zero.mp hroom)
    have hzero : value = 0 := Nat.digits_eq_nil_iff_eq_zero.mp hnil
    refine ⟨tmp, ?_, fun k => ?_⟩
    · rw [tmpLoop, if_neg (not_not_intro hzero), hnil]
      rfl
    · rw [hnil]
      simp
  | succ room ih =>
    rw [tmpLoop]
    by_cases hzero : value = 0
    · refine ⟨tmp, ?_, fun k => ?_⟩
      · rw [if_neg (not_not_intro hzero), hzero, Nat.digits_zero]
        rfl
      · rw [hzero, Nat.digits_zero]
        simp
    · have hdigits : Nat.digits 10 value = value % 10 :: Nat.digits 10 (value / 10) :=
        Nat.digits_def' (by decide) (Nat.pos_of_ne_zero hzero)
      rw [hdigits, List.length_cons] at hroom ⊢
      obtain ⟨tmp', hloop, htmp⟩ := ih (Nat.le_of_succ_le_succ hroom) (n + 1) (Function.update tmp n (digitChar (value % 10)))
      refine ⟨tmp', ?_, fun k => ?_⟩
      · rw [if_pos hzero, hloop]
        congr 2
        omega
      · rw [htmp]
        by_cases hk : n + 1 ≤ k
        · have hsub : k - n = k - (n + 1) + 1 := by omega
          rw [if_pos hk, if_pos (by omega), hsub, List.map_cons, List.getD_cons_succ, Function.update_of_ne (by omega)]
        · rw [if_neg hk]
          by_cases heq : k = n
          · subst heq
            simp
          · rw [if_neg (by omega), Function.update_of_ne heq]

/-- The loop of `ep_fmt_uint` that turns `tmp` round. -/
theorem copyBack_eq (tmp buf : ℕ → Byte) (f : ℕ → ℕ) (n k : ℕ) :
    (List.range n).foldl (fun buf i => Function.update buf i (tmp (f i))) buf k = if k < n then tmp (f k) else buf k := by
  induction n with
  | zero => rfl
  | succ n ih =>
    rw [List.range_succ, List.foldl_append, List.foldl_cons, List.foldl_nil]
    by_cases hlast : k = n
    · rw [hlast, Function.update_self, if_pos (Nat.lt_succ_self n)]
    · rw [Function.update_of_ne hlast, ih]
      congr 1
      simp only [eq_iff_iff]
      omega

theorem epFmtUint_eq (buf : ℕ → Byte) (v : BitVec 32) (junk : ℕ → Byte) :
    ∃ buf', epFmtUint buf v junk = some (buf', (decimalString v.toNat).length) ∧
      ∀ i, buf' i = (decimalString v.toNat).getD i (buf i) := by
  unfold epFmtUint
  by_cases hzero : v = 0
  · refine ⟨Function.update buf 0 48, by rw [if_pos hzero, hzero]; rfl, fun i => ?_⟩
    have hone : decimalString v.toNat = [48] := by
      rw [hzero]
      rfl
    rw [hone]
    cases i with
    | zero => rfl
    | succ i => rfl
  · have hpos : v.toNat ≠ 0 := mt (eq_zero_iff v).mpr hzero
    have hlength : (Nat.digits 10 v.toNat).length ≤ 10 :=
      (Nat.digits_length_le_iff (by decide) _).mpr (toNat_lt_pow v (by decide))
    obtain ⟨tmp, hloop, htmp⟩ := tmpLoop_eq hlength 0 junk
    have hdecimal : decimalString v.toNat = ((Nat.digits 10 v.toNat).map digitChar).reverse := by
      rw [decimalString, numeralString_of_pos hpos, List.map_reverse]
    rw [if_neg hzero, hloop, Nat.zero_add, hdecimal, List.length_reverse, List.length_map]
    refine ⟨_, rfl, fun i => ?_⟩
    rw [copyBack_eq tmp buf fun i => (Nat.digits 10 v.toNat).length - 1 - i]
    by_cases hi : i < (Nat.digits 10 v.toNat).length
    · have hplace : (Nat.digits 10 v.toNat).length - 1 - i < ((Nat.digits 10 v.toNat).map digitChar).length := by
        rw [List.length_map]
        omega
      rw [if_pos hi, htmp, if_pos (Nat.zero_le _), Nat.sub_zero, List.getD_eq_getElem _ _ hplace,
        List.getD_eq_getElem _ _ (by rwa [List.length_reverse, List.length_map]), List.getElem_reverse]
      simp only [List.length_map]
    · rw [if_neg hi, List.getD_eq_default _ _ (by simpa using hi)]

/-! ### The parser -/

theorem isDigit_digitChar (h : d < 10) : isDigit (digitChar d) = true := by
  interval_cases d <;> rfl

theorem digitOf_digitChar (h : d < 10) : digitOf (digitChar d) = d := by
  interval_cases d <;> rfl

theorem decimalString_digits (n : ℕ) : ∀ c ∈ decimalString n, isDigit c = true := by
  intro c hc
  obtain ⟨d, hd, rfl⟩ := List.mem_map.mp hc
  exact isDigit_digitChar (numeral_lt (by decide) hd)

theorem decimalString_value (n : ℕ) : Numerals.value 10 ((decimalString n).map digitOf) = n := by
  have hdigits : (decimalString n).map digitOf = numeral 10 n := by
    rw [decimalString, numeralString, List.map_map]
    refine (List.map_congr_left fun d hd => ?_).trans (List.map_id _)
    exact digitOf_digitChar (numeral_lt (by decide) hd)
  rw [hdigits, value_numeral]

/-- The rest of a string begins behind the digits. -/
def NoDigitFirst (rest : List Byte) : Prop := ∀ c, rest.head? = some c → isDigit c = false

theorem digitRun_append {ds rest : List Byte} (hds : ∀ c ∈ ds, isDigit c = true) (hrest : NoDigitFirst rest) :
    digitRun (ds ++ rest) = ds ∧ (ds ++ rest).dropWhile isDigit = rest := by
  have hstop : rest.takeWhile isDigit = [] ∧ rest.dropWhile isDigit = rest := by
    cases rest with
    | nil => exact ⟨rfl, rfl⟩
    | cons c rest =>
      have hc : ¬isDigit c = true := by
        rw [hrest c rfl]
        exact Bool.false_ne_true
      exact ⟨List.takeWhile_cons_of_neg hc, List.dropWhile_cons_of_neg hc⟩
  refine ⟨?_, ?_⟩
  · rw [digitRun, List.takeWhile_append_of_pos hds, hstop.1, List.append_nil]
  · rw [List.dropWhile_append_of_pos hds, hstop.2]

/-- The parser reads back what the writers wrote. -/
theorem shellParseUint_decimal (v : BitVec 32) {rest : List Byte} (hrest : NoDigitFirst rest) :
    shellParseUint (decimalString v.toNat ++ rest) = some (rest, v) := by
  obtain ⟨hrun, hbehind⟩ := digitRun_append (decimalString_digits v.toNat) hrest
  have hsome : decimalString v.toNat ≠ [] := by
    rw [decimalString, numeralString, Ne, List.map_eq_nil_iff]
    exact numeral_ne_nil 10 v.toNat
  have hnumber : typedNumber (decimalString v.toNat ++ rest) = v.toNat := by
    rw [typedNumber, hrun, decimalString_value]
  rw [shellParseUint_eq, hrun, if_neg hsome, hbehind, hnumber, BitVec.ofNat_toNat, BitVec.setWidth_eq]

/-- The number that a string of hexadecimal digits stands for. -/
def hexValue (ds : List Byte) : ℕ := Numerals.value 16 (ds.map fun c => hexDigits.idxOf c)

theorem hexValue_hexNumeral (n : ℕ) : hexValue (hexNumeral n) = n := by
  have hplace : ∀ d < 16, hexDigits.idxOf (hexChar d) = d := by decide
  have hdigits : (hexNumeral n).map (fun c => hexDigits.idxOf c) = numeral 16 n := by
    rw [hexNumeral, numeralString, List.map_map]
    refine (List.map_congr_left fun d hd => ?_).trans (List.map_id _)
    exact hplace d (numeral_lt (by decide) hd)
  rw [hexValue, hdigits, value_numeral]

/-- How the functions render a 32-bit number, each within its own buffer. -/
structure Rendered (v : BitVec 32) : Prop where
  printInt : ∀ junk, printIntString v 10 false junk = some (decimalString v.toNat)
  terminalWriteUint : ∀ junk, terminalWriteUintString v junk = some (decimalString v.toNat)
  epFmtUint : ∀ buf junk, ∃ buf', epFmtUint buf v junk = some (buf', (decimalString v.toNat).length) ∧
    ∀ i, buf' i = (decimalString v.toNat).getD i (buf i)
  noLeadingZero : (decimalString v.toNat).head? = some 48 → decimalString v.toNat = [48]
  parsed : ∀ rest, NoDigitFirst rest → shellParseUint (decimalString v.toNat ++ rest) = some (rest, v)
  signed : ∀ junk, printIntString v 10 true junk =
    some (if v.toInt < 0 then 45 :: decimalString v.toInt.natAbs else decimalString v.toInt.natAbs)
  hex : ∃ ds, (∀ junk, printHexString v junk = some (chars "0x" ++ ds)) ∧
    (∀ junk, terminalWriteHexString v junk = some (chars "0x" ++ ds)) ∧ hexValue ds = v.toNat

theorem digitChar_eq_zero (h : d < 10) (hd : digitChar d = 48) : d = 0 := by
  interval_cases d <;> first | rfl | cases hd

theorem number_rendering_exact (v : BitVec 32) : Rendered v := by
  refine ⟨printIntString_unsigned v, terminalWriteUintString_eq v, ?_, ?_, ?_, printIntString_signed v, ?_⟩
  · exact fun buf junk => epFmtUint_eq buf v junk
  · intro hhead
    rw [decimalString, numeralString, List.head?_map] at hhead
    obtain ⟨d, hd, hzero⟩ := Option.map_eq_some_iff.mp hhead
    have hlt : d < 10 := numeral_lt (by decide) (List.mem_of_mem_head? hd)
    rw [digitChar_eq_zero hlt hzero] at hd
    rw [numeral_head hd]
    rfl
  · exact fun rest hrest => shellParseUint_decimal v hrest
  · refine ⟨hexNumeral v.toNat, fun junk => ?_, fun junk => ?_, hexValue_hexNumeral v.toNat⟩
    · rw [printHexString, hexString_eq (by decide)]
      rfl
    · rw [terminalWriteHexString, hexString_eq (by decide)]
      rfl

end HekaOS.Vga
