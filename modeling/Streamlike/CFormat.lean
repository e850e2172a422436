import Streamlike.CString
import Streamlike.Ring

/-!
# C integers and formatted output

The conversions to a 32-bit `int` and a 64-bit `size_t`, the texts of the
`printf` directives, and `snprintf` on a byte memory. A formatted text is
what the call is to produce; `snprintf` stores as much of it as fits in
`size` bytes with the NUL, and returns its length as it was before.
-/

namespace CFormat

open CString

/-! ## Integers -/

def intMax : Nat := 2 ^ 31 - 1

/-- The conversion to `int`. -/
def toInt (n : Int) : Int := n.bmod (2 ^ 32)

/-- The conversion to `size_t`. -/
def toSizeT (n : Int) : Nat := (n % 2 ^ 64).toNat

/-- The conversion of a `size_t` to the signed type of its width. -/
def toSsizeT (n : Nat) : Int := (n : Int).bmod (2 ^ 64)

theorem toInt_of_le {n : Int} (hpos : 0 ≤ n) (hle : n ≤ intMax) : toInt n = n := by
  unfold toInt intMax at *
  rw [Int.bmod_def]
  omega

theorem toInt_toInt (n : Int) : toInt (toInt n) = toInt n := Int.bmod_bmod

/-- The conversion of a sum needs no conversion of its parts. -/
theorem toInt_add (m n : Int) : toInt (m + toInt n) = toInt (m + n) := by
  unfold toInt
  rw [Int.add_bmod_bmod]

/-- Nor does it matter that a part has been converted to `size_t`. -/
theorem toInt_add_toSizeT (m n : Int) : toInt (m + toSizeT n) = toInt (m + n) := by
  have hsize : (toSizeT n : Int) = n % 2 ^ 64 := Int.toNat_of_nonneg (by omega)
  rw [hsize]
  unfold toInt
  simp only [Int.bmod_def]
  omega

theorem toSizeT_of_nonneg {n : Int} (hpos : 0 ≤ n) (hle : n ≤ intMax) :
    (toSizeT n : Int) = n := by
  unfold toSizeT intMax at *
  omega

/-! ## Texts -/

/-- An ASCII string. -/
def lit (s : String) : Bytes := s.toList.map fun c => UInt8.ofNat c.toNat

theorem lit_append (s t : String) : lit (s ++ t) = lit s ++ lit t := by
  rw [lit, String.toList_append, List.map_append]
  rfl

def digits (n : Nat) : Bytes := lit (String.ofList (Nat.toDigits 10 n))

/-- `%d`. -/
def formatInt (n : Int) : Bytes := if n < 0 then 45 :: digits n.natAbs else digits n.natAbs

/-- `%c`. -/
def formatChar (c : Int) : Bytes := [UInt8.ofNat (c % 256).toNat]

theorem digits_eq (n : Nat) :
    digits n = (Nat.toDigits 10 n).map fun c => UInt8.ofNat c.toNat := by
  rw [digits, lit, String.toList_ofList]

theorem toNat_toDigits {n : Nat} {c : Char} (hc : c ∈ Nat.toDigits 10 n) :
    48 ≤ c.toNat ∧ c.toNat ≤ 57 := by
  have hdigit := Nat.isDigit_of_mem_toDigits (by decide) (by decide) hc
  simpa [Char.isDigit, UInt32.le_iff_toNat_le] using hdigit

theorem isdigit_digits (n : Nat) : ∀ b ∈ digits n, isdigit b = true := by
  intro b hb
  rw [digits_eq] at hb
  obtain ⟨c, hc, rfl⟩ := List.mem_map.mp hb
  obtain ⟨hle, hge⟩ := toNat_toDigits hc
  simp only [isdigit, Bool.and_eq_true, decide_eq_true_eq, UInt8.le_iff_toNat_le]
  rw [UInt8.toNat_ofNat_of_lt' (by show c.toNat < 256; omega)]
  exact ⟨hle, hge⟩

theorem digits_ne_nil (n : Nat) : digits n ≠ [] := by
  rw [digits_eq]
  simp

/-- The digits of a number are read as that number. -/
theorem decimal_digits (n : Nat) : decimal (digits n) = n := by
  have hfold : ∀ (l : List Char) (m : Nat), (∀ c ∈ l, c.toNat < 256) →
      (l.map fun c => UInt8.ofNat c.toNat).foldl (fun n b => 10 * n + (b.toNat - 48)) m
        = Nat.ofDigitChars 10 l m := by
    intro l
    induction l with
    | nil => intro m _; rfl
    | cons c l ih =>
        intro m hl
        rw [List.map_cons, List.foldl_cons, Nat.ofDigitChars_cons,
          ih _ fun d hd => hl d (List.mem_cons_of_mem _ hd),
          UInt8.toNat_ofNat_of_lt' (hl c List.mem_cons_self)]
        rfl
  rw [decimal, digits_eq,
    hfold _ 0 fun c hc => Nat.lt_of_le_of_lt (toNat_toDigits hc).2 (by decide),
    Nat.ofDigitChars_toDigits (by decide) (by decide)]

theorem length_digits_le {n k : Nat} (hk : 0 < k) (h : n < 10 ^ k) : (digits n).length ≤ k := by
  rw [digits_eq, List.length_map]
  exact (Nat.length_toDigits_le_iff (by decide) hk).mpr h

/-! ## `snprintf` -/

/-- What a call is to produce: a text, or one up to an encoding error. -/
structure Formatted where
  bytes : Bytes
  error : Bool

/-- It is no error, and its length is an `int`. -/
def Formatted.Counted (f : Formatted) : Prop := f.error = false ∧ f.bytes.length ≤ intMax

instance (f : Formatted) : Decidable f.Counted := inferInstanceAs (Decidable (_ ∧ _))

/-- `snprintf(m + off, size, ..)`. -/
def snprintf (m : ByteMem UInt8) (off size : Nat) (f : Formatted) : ByteMem UInt8 × Int :=
  (if size = 0 then m else m.write off (f.bytes.take (size - 1) ++ [0]),
    if f.Counted then f.bytes.length else -1)

/-- A negative value is returned for what cannot be counted. -/
theorem snprintf_fails {m : ByteMem UInt8} {off size : Nat} {f : Formatted} :
    (snprintf m off size f).2 < 0 ↔ ¬ f.Counted := by
  simp only [snprintf]
  split
  · next h => exact iff_of_false (by omega) (not_not.mpr h)
  · next h => exact iff_of_true (by omega) h

theorem snprintf_counts (m : ByteMem UInt8) (off size : Nat) {f : Formatted} (h : f.Counted) :
    (snprintf m off size f).2 = f.bytes.length :=
  if_pos h

theorem snprintf_of_lt (m : ByteMem UInt8) {off k : Nat} (size : Nat) (f : Formatted)
    (h : k < off) : (snprintf m off size f).1 k = m k := by
  unfold snprintf
  dsimp only
  split
  · rfl
  · exact ByteMem.write_of_lt m _ h

/-- What it stores. -/
theorem snprintf_read (m : ByteMem UInt8) (off size : Nat) (f : Formatted) :
    (snprintf m off (size + 1) f).1.read off ((f.bytes.take size).length + 1)
      = f.bytes.take size ++ [0] := by
  have hlen : (f.bytes.take size ++ [0]).length = (f.bytes.take size).length + 1 := by simp
  rw [← hlen]
  exact ByteMem.read_write_self m off _

/-- It stores all of a text that is shorter than the region. -/
theorem snprintf_read_all (m : ByteMem UInt8) (off size : Nat) {f : Formatted}
    (h : f.bytes.length ≤ size) :
    (snprintf m off (size + 1) f).1.read off f.bytes.length = f.bytes := by
  have hread := snprintf_read m off size f
  rw [List.take_of_length_le h] at hread
  rw [← ByteMem.take_read _ off (Nat.le_succ _), hread, List.take_left' rfl]

theorem cstr_eq_self_iff {l : Bytes} : cstr l = l ↔ 0 ∉ l := by
  unfold cstr
  rw [List.takeWhile_eq_self_iff]
  constructor
  · exact fun h hmem => absurd (h 0 hmem) (by decide)
  · exact fun h b hb => bne_iff_ne.mpr fun hb' => h (hb' ▸ hb)

theorem length_cstr_le (l : Bytes) : (cstr l).length ≤ l.length :=
  (List.takeWhile_prefix _).length_le

/-- The C string at the beginning of a region. -/
theorem cstr_read {m : ByteMem UInt8} {l : Bytes} {size : Nat}
    (h : m.read 0 (l.length + 1) = l ++ [0]) (hlt : l.length < size) :
    cstr (m.read 0 size) = cstr l := by
  obtain ⟨d, rfl⟩ := Nat.exists_eq_add_of_le (Nat.succ_le_of_lt hlt)
  rw [ByteMem.read_add, show l.length.succ = l.length + 1 from rfl, h, List.append_assoc]
  unfold cstr
  rw [List.takeWhile_append]
  split
  · next hall => simp [(List.takeWhile_prefix _).eq_of_length hall]
  · rfl

end CFormat
