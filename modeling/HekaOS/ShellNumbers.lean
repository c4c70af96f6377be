import HekaOS.Numerals
import HekaOS.Vga

/-!
# Numbers typed in the shell

`shell_parse_uint` reads the digits of a command line into a `uint32_t`. A string is the list of its
characters before the terminator, and the cursor is the rest of the string.
-/

namespace HekaOS.Vga
open Numerals

/-- `*s >= '0' && *s <= '9'` -/
def isDigit (c : Byte) : Bool := 48 ≤ c.toNat && c.toNat ≤ 57

/-- `*s - '0'` -/
def digitOf (c : Byte) : ℕ := c.toNat - 48

/-- The loop of `shell_parse_uint`, with the cursor and `v`. -/
def parseDigits : List Byte → BitVec 32 → List Byte × BitVec 32
  | [], v => ([], v)
  | c :: s, v => if isDigit c then parseDigits s (v * 10 + BitVec.ofNat 32 (digitOf c)) else (c :: s, v)

/-- The cursor behind the digits and `*out`, or nothing where the function returns 0. -/
def shellParseUint (p : List Byte) : Option (List Byte × BitVec 32) :=
  match p with
  | [] => none
  | c :: s => if isDigit c then some (parseDigits (c :: s) 0) else none

def shellSkipSpaces (p : List Byte) : List Byte := p.dropWhile fun c => c == 32

/-- The loop of `shell_starts_with`. -/
def startsWithFrom : List Byte → List Byte → ℕ → ℕ
  | _, [], i => i
  | [], _ :: _, _ => 0
  | c :: cmd, d :: pre, i => if c ≠ d then 0 else startsWithFrom cmd pre (i + 1)

def shellStartsWith (cmd pre : List Byte) : ℕ := startsWithFrom cmd pre 0

/-- The pid and the signal of `kill <pid> <sig>` and `signal <pid> <sig>`, or nothing where the shell
prints the usage. -/
def shellPidSig (args : List Byte) : Option (BitVec 32 × BitVec 32) := do
  let (p, pid) ← shellParseUint (shellSkipSpaces args)
  let (_, sig) ← shellParseUint (shellSkipSpaces p)
  some (pid, sig)

/-- What `shell_execute` passes to `shell_kill`. -/
def killArgs (cmd : List Byte) : Option (BitVec 32 × BitVec 32) :=
  if shellStartsWith cmd (chars "kill ") > 0 then shellPidSig (cmd.drop 5) else none

variable {p rest ds : List Byte} {c : Byte} {v : BitVec 32}

/-- The digits in front. -/
def digitRun (p : List Byte) : List Byte := p.takeWhile isDigit

/-- The number that the digits in front stand for. -/
def typedNumber (p : List Byte) : ℕ := value 10 ((digitRun p).map digitOf)

theorem parseDigits_eq (p : List Byte) (v : BitVec 32) :
    parseDigits p v = (p.dropWhile isDigit,
      (digitRun p).foldl (fun v c => v * 10 + BitVec.ofNat 32 (digitOf c)) v) := by
  induction p generalizing v with
  | nil => rfl
  | cons c s ih =>
    rw [parseDigits, digitRun]
    cases hdigit : isDigit c with
    | true =>
      rw [if_pos rfl, ih, List.dropWhile_cons_of_pos hdigit, List.takeWhile_cons_of_pos hdigit, List.foldl_cons]
      rfl
    | false =>
      have hstop : ¬isDigit c = true := by rw [hdigit]; exact Bool.false_ne_true
      rw [if_neg Bool.false_ne_true, List.dropWhile_cons_of_neg hstop, List.takeWhile_cons_of_neg hstop]
      rfl

/-- The accumulator is the number modulo `2 ^ 32`. -/
theorem foldl_toNat (ds : List Byte) (v : BitVec 32) :
    (ds.foldl (fun v c => v * 10 + BitVec.ofNat 32 (digitOf c)) v).toNat =
      (ds.map digitOf).foldl (fun v d => (v * 10 + d) % 2 ^ 32) v.toNat := by
  induction ds generalizing v with
  | nil => rfl
  | cons c ds ih =>
    have hstep : (v * 10 + BitVec.ofNat 32 (digitOf c)).toNat = (v.toNat * 10 + digitOf c) % 2 ^ 32 := by
      simp [BitVec.toNat_add, BitVec.toNat_mul]
    rw [List.foldl_cons, List.map_cons, List.foldl_cons, ih, hstep]

theorem parseDigits_toNat (p : List Byte) : (parseDigits p 0).2.toNat = typedNumber p % 2 ^ 32 := by
  rw [parseDigits_eq, foldl_toNat]
  exact foldl_mod 10 (2 ^ 32) _ 0

/-- The parser says whether there is a digit in front, and what it returns is the number there. -/
def ParsesExactly (p : List Byte) : Prop :=
  (shellParseUint p = none ↔ digitRun p = []) ∧
    ∀ rest v, shellParseUint p = some (rest, v) → v.toNat = typedNumber p ∧ p = digitRun p ++ rest

theorem shellParseUint_cases (p : List Byte) :
    shellParseUint p = none ∧ digitRun p = [] ∨
      shellParseUint p = some (parseDigits p 0) ∧ digitRun p ≠ [] := by
  cases p with
  | nil => exact .inl ⟨rfl, rfl⟩
  | cons c s =>
    unfold shellParseUint digitRun
    cases hdigit : isDigit c with
    | true =>
      rw [List.takeWhile_cons_of_pos hdigit]
      exact .inr ⟨if_pos hdigit, List.cons_ne_nil _ _⟩
    | false =>
      have hstop : ¬isDigit c = true := by rw [hdigit]; exact Bool.false_ne_true
      rw [List.takeWhile_cons_of_neg hstop]
      exact .inl ⟨if_neg hstop, rfl⟩

/-- The accumulator wraps without a check, so that a number of 32 bits or less is what it must be. -/
theorem shell_parse_uint_exact_iff (p : List Byte) : ParsesExactly p ↔ typedNumber p < 2 ^ 32 := by
  rcases shellParseUint_cases p with ⟨hnone, hempty⟩ | ⟨hsome, hdigits⟩
  · have hzero : typedNumber p = 0 := by
      rw [typedNumber, hempty]
      rfl
    rw [hzero]
    refine ⟨fun _ => by decide, fun _ => ⟨⟨fun _ => hempty, fun _ => hnone⟩, fun rest v hv => ?_⟩⟩
    rw [hnone] at hv
    cases hv
  · have hvalue := parseDigits_toNat p
    constructor
    · rintro ⟨-, hexact⟩
      have hv := (hexact _ _ hsome).1
      rw [← hv]
      exact (parseDigits p 0).2.isLt
    · intro hsmall
      rw [Nat.mod_eq_of_lt hsmall] at hvalue
      refine ⟨⟨fun hnone => ?_, fun hempty => absurd hempty hdigits⟩, fun rest v hv => ?_⟩
      · rw [hsome] at hnone
        cases hnone
      · obtain ⟨rfl, rfl⟩ := Prod.mk.inj (Option.some.inj (hsome.symm.trans hv))
        refine ⟨hvalue, ?_⟩
        rw [parseDigits_eq]
        exact List.takeWhile_append_dropWhile.symm

/-- The pid `2 ^ 32 + 3` is taken for the pid 3, and `kill` sends the signal there. -/
theorem shell_parse_uint_wraps : ¬ParsesExactly (chars "4294967299") ∧
    killArgs (chars "kill 4294967299 9") = some (3, 9) := by
  refine ⟨fun hexact => ?_, by decide⟩
  have hparse : shellParseUint (chars "4294967299") = some ([], 3) := by decide
  have hvalue := (hexact.2 _ _ hparse).1
  exact absurd hvalue (by decide)

theorem shellParseUint_eq (p : List Byte) : shellParseUint p =
    if digitRun p = [] then none else some (p.dropWhile isDigit, BitVec.ofNat 32 (typedNumber p)) := by
  rcases shellParseUint_cases p with ⟨hnone, hempty⟩ | ⟨hsome, hdigits⟩
  · rw [hnone, if_pos hempty]
  · have hvalue : (parseDigits p 0).2 = BitVec.ofNat 32 (typedNumber p) := by
      apply BitVec.eq_of_toNat_eq
      rw [parseDigits_toNat, BitVec.toNat_ofNat]
    have hrest : (parseDigits p 0).1 = p.dropWhile isDigit := by rw [parseDigits_eq]
    rw [hsome, if_neg hdigits, ← hvalue, ← hrest]

end HekaOS.Vga
