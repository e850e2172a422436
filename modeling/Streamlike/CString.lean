import Mathlib.Algebra.Group.Int.Defs
import Mathlib.Algebra.Group.Nat.Defs
import Mathlib.Data.List.DropRight

/-!
# C string functions on byte strings

The functions of the C library that a parser of text lines uses, in the C
locale. A pointer into a buffer is the bytes from there to the end of the
buffer; the functions that run to a NUL take the buffer to be followed by
one. The scanning functions return what is left of the input.
-/

/-- A byte string. -/
abbrev Bytes := List UInt8

namespace CString

def isspace (b : UInt8) : Bool := b == 32 || (9 ≤ b && b ≤ 13)

def isdigit (b : UInt8) : Bool := 48 ≤ b && b ≤ 57

def tolower (b : UInt8) : UInt8 := if 65 ≤ b && b ≤ 90 then b + 32 else b

/-- `strncasecmp(s1, s2, n) == 0`, for an `s2` of `n` bytes and an `s1` of
no fewer. -/
def caseEq (s1 s2 : Bytes) : Bool := (s1.take s2.length).map tolower == s2.map tolower

/-- The C string that starts here. -/
def cstr (s : Bytes) : Bytes := s.takeWhile (· != 0)

/-- The value of a string of digits. -/
def decimal (digits : Bytes) : Nat := digits.foldl (fun n b => 10 * n + (b.toNat - 48)) 0

/-- An optional sign: whether it is a minus, and the rest. -/
def sign : Bytes → Bool × Bytes
  | [] => (false, [])
  | b :: s => if b == 45 then (true, s) else if b == 43 then (false, s) else (false, b :: s)

/-- The number that a text begins with: whether it has a minus, and its
digits. No digits are 0. -/
def leading (s : Bytes) : Bool × Nat :=
  let (minus, s) := sign ((cstr s).dropWhile isspace)
  (minus, decimal (s.takeWhile isdigit))

/-- `strtoull(s, NULL, 10)`: no digits give 0, a number out of range
`ULLONG_MAX`, and a minus negates modulo `2 ^ 64`. -/
def strtoull (s : Bytes) : Nat :=
  let (minus, s) := sign ((cstr s).dropWhile isspace)
  let n := decimal (s.takeWhile isdigit)
  if 2 ^ 64 ≤ n then 2 ^ 64 - 1
  else if minus then (2 ^ 64 - n) % 2 ^ 64
  else n

/-- The conversion of an `unsigned long long` to a 64-bit `off_t`. -/
def toOffT (n : Nat) : Int := if n < 2 ^ 63 then n else (n : Int) - 2 ^ 64

/-- `strtoull` reads the number that the text begins with. -/
theorem strtoull_eq (s : Bytes) :
    strtoull s = if 2 ^ 64 ≤ (leading s).2 then 2 ^ 64 - 1
      else if (leading s).1 then (2 ^ 64 - (leading s).2) % 2 ^ 64 else (leading s).2 := rfl

/-! ## White space behind a text -/

theorem isdigit_of_isspace {b : UInt8} (h : isspace b = true) : isdigit b = false := by
  simp only [isspace, isdigit, Bool.or_eq_true, beq_iff_eq, Bool.and_eq_true, decide_eq_true_eq,
    Bool.and_eq_false_iff, decide_eq_false_iff_not, UInt8.le_iff_toNat_le,
    ← UInt8.toNat_inj] at h ⊢
  simp at h ⊢
  omega

theorem ne_nul_of_isspace {b : UInt8} (h : isspace b = true) : (b != 0) = true := by
  rw [bne_iff_ne]
  rintro rfl
  exact absurd h (by decide)

theorem takeWhile_isdigit_append (s : Bytes) {blank : Bytes}
    (hblank : ∀ b ∈ blank, isspace b = true) :
    (s ++ blank).takeWhile isdigit = s.takeWhile isdigit := by
  have hnone : blank.takeWhile isdigit = [] := by
    cases blank with
    | nil => rfl
    | cons b blank =>
        simp [isdigit_of_isspace (hblank b List.mem_cons_self)]
  rw [List.takeWhile_append, hnone, List.append_nil]
  split
  · next hall => exact (List.takeWhile_prefix _).eq_of_length hall |>.symm
  · rfl

/-- It does not count for the number at the beginning. -/
theorem leading_append (s : Bytes) {blank : Bytes} (hblank : ∀ b ∈ blank, isspace b = true) :
    leading (s ++ blank) = leading s := by
  have hnul : cstr blank = blank :=
    List.takeWhile_eq_self_iff.mpr fun b hb => ne_nul_of_isspace (hblank b hb)
  have hskip : blank.dropWhile isspace = [] := List.dropWhile_eq_nil_iff.mpr hblank
  have hcstr : cstr (s ++ blank) = cstr s ++ blank ∨ cstr (s ++ blank) = cstr s := by
    unfold cstr at hnul ⊢
    rw [List.takeWhile_append, hnul]
    split
    · next hall => exact .inl (by rw [(List.takeWhile_prefix _).eq_of_length hall])
    · exact .inr rfl
  unfold leading
  rcases hcstr with h | h
  · rw [h, List.dropWhile_append, hskip]
    cases hs : (cstr s).dropWhile isspace with
    | nil => rfl
    | cons b t =>
        simp only [List.isEmpty_cons, Bool.false_eq_true, if_false, List.cons_append, sign]
        split
        · rw [takeWhile_isdigit_append t hblank]
        · split
          · rw [takeWhile_isdigit_append t hblank]
          · rw [← List.cons_append, takeWhile_isdigit_append _ hblank]
  · rw [h]

theorem strtoull_append (s : Bytes) {blank : Bytes} (hblank : ∀ b ∈ blank, isspace b = true) :
    strtoull (s ++ blank) = strtoull s := by
  rw [strtoull_eq, strtoull_eq, leading_append s hblank]

/-! ## `sscanf` -/

/-- A literal of the format. -/
def scanLit : Bytes → Bytes → Option Bytes
  | [], s => some s
  | _ :: _, [] => none
  | c :: lit, b :: s => if c == b then scanLit lit s else none

/-- White space in the format. -/
def scanSpace (s : Bytes) : Bytes := s.dropWhile isspace

/-- `%*<width>s`. -/
def scanWord (width : Nat) (s : Bytes) : Option Bytes :=
  let s := scanSpace s
  let word := (s.take width).takeWhile fun b => !isspace b
  if word.isEmpty then none else some (s.drop word.length)

/-- `%d`. A number outside a 32-bit `int` is undefined in C; here it gives
its low 32 bits. -/
def scanInt (s : Bytes) : Option (Int × Bytes) :=
  let (minus, s) := sign (scanSpace s)
  let digits := s.takeWhile isdigit
  if digits.isEmpty then none
  else
    let n : Int := if minus then -(decimal digits : Int) else decimal digits
    some (n.bmod (2 ^ 32), s.drop digits.length)

/-- `%zu`. A number out of range is `SIZE_MAX`, and a minus negates modulo
`2 ^ 64`. -/
def scanSize (s : Bytes) : Option (Nat × Bytes) :=
  let (minus, s) := sign (scanSpace s)
  let digits := s.takeWhile isdigit
  if digits.isEmpty then none
  else
    let n := decimal digits
    some (if 2 ^ 64 ≤ n then 2 ^ 64 - 1 else if minus then (2 ^ 64 - n) % 2 ^ 64 else n,
      s.drop digits.length)

section Digits

variable {digits rest : Bytes}

theorem scanSpace_digits (hne : digits ≠ []) (hdigits : ∀ b ∈ digits, isdigit b = true) :
    scanSpace (digits ++ rest) = digits ++ rest := by
  cases digits with
  | nil => exact absurd rfl hne
  | cons b digits =>
      have hb := hdigits b List.mem_cons_self
      have hspace : isspace b = false :=
        Bool.eq_false_iff.mpr fun hs => by rw [isdigit_of_isspace hs] at hb; cases hb
      rw [List.cons_append, scanSpace, List.dropWhile_cons_of_neg
        (by rw [hspace]; exact Bool.false_ne_true)]

/-- Digits have no white space and no sign before them. -/
theorem sign_scanSpace_digits (hne : digits ≠ []) (hdigits : ∀ b ∈ digits, isdigit b = true) :
    sign (scanSpace (digits ++ rest)) = (false, digits ++ rest) := by
  rw [scanSpace_digits hne hdigits]
  cases digits with
  | nil => exact absurd rfl hne
  | cons b digits =>
      have hb := hdigits b List.mem_cons_self
      have hminus : (b == 45) = false := beq_false_of_ne fun heq => absurd (heq ▸ hb) (by decide)
      have hplus : (b == 43) = false := beq_false_of_ne fun heq => absurd (heq ▸ hb) (by decide)
      rw [List.cons_append, sign, hminus, hplus]
      rfl

theorem takeWhile_digits (hdigits : ∀ b ∈ digits, isdigit b = true)
    (hrest : rest.takeWhile isdigit = []) : (digits ++ rest).takeWhile isdigit = digits := by
  rw [List.takeWhile_append_of_pos hdigits, hrest, List.append_nil]

theorem scanInt_digits (hne : digits ≠ []) (hdigits : ∀ b ∈ digits, isdigit b = true)
    (hrest : rest.takeWhile isdigit = []) (hlt : decimal digits < 2 ^ 31) :
    scanInt (digits ++ rest) = some ((decimal digits : Int), rest) := by
  have hempty : digits.isEmpty = false := by simpa using hne
  have hint : (decimal digits : Int).bmod (2 ^ 32) = decimal digits :=
    Int.bmod_eq_of_le_mul_two (by omega) (by omega)
  simp only [scanInt, sign_scanSpace_digits hne hdigits, takeWhile_digits hdigits hrest, hempty,
    List.drop_left, Bool.false_eq_true, if_false, hint]

theorem scanSize_digits (hne : digits ≠ []) (hdigits : ∀ b ∈ digits, isdigit b = true)
    (hrest : rest.takeWhile isdigit = []) (hlt : decimal digits < 2 ^ 64) :
    scanSize (digits ++ rest) = some (decimal digits, rest) := by
  have hempty : digits.isEmpty = false := by simpa using hne
  simp only [scanSize, sign_scanSpace_digits hne hdigits, takeWhile_digits hdigits hrest, hempty,
    List.drop_left, Bool.false_eq_true, if_false, if_neg (Nat.not_le.mpr hlt)]

end Digits

end CString
