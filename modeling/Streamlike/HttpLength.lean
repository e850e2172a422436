import Streamlike.HttpField

/-!
# The length of the stream

`givenLength` is what a header line says: the decimal number that is the
value of a `Content-Length` under status 200, or that stands behind the
slash of a `Content-Range` under status 206. The callback converts with
`strtoull`, which takes the number at the beginning of a text, takes a
text without one for 0, and takes a sign. So it agrees with the line where
the text is all digits, and where what it makes of the text is no `off_t`
or a negative one, which leaves the length unknown (`length_learnt_iff`).
-/

namespace Streamlike

open CString

/-! ## What the line says -/

/-- The number that a text of digits is, if it fits a 64-bit `off_t`. -/
def decimalNumber (text : Bytes) : Option Nat :=
  if text ≠ [] ∧ text.all isdigit ∧ decimal text < 2 ^ 63 then some (decimal text) else none

/-- The length that the line gives in a response of this status. -/
def givenLength (status : Int) (curlbuf : Bytes) : Option Nat :=
  match fieldOf curlbuf with
  | some (name, value) =>
      if status = 200 ∧ sameName name cntLen then decimalNumber value
      else if status = 206 ∧ sameName name cntRng then
        decimalNumber ((value.dropWhile (· != 47)).drop 1)
      else none
  | none => none

/-! ## What the callback converts -/

/-- The name that a field of this type has. -/
def HeaderType.name : HeaderType → Bytes
  | .contentLength => cntLen
  | .contentRange => cntRng
  | .acceptRanges => actRng
  | .other => []

/-- The number at the beginning of the text, none being 0, is no `off_t`
or a negative one. -/
def NoLength (text : Bytes) : Prop :=
  if (leading text).1 then
    (0 < (leading text).2 ∧ (leading text).2 ≤ 2 ^ 63) ∨ 2 ^ 64 ≤ (leading text).2
  else 2 ^ 63 ≤ (leading text).2

instance (text : Bytes) : Decidable (NoLength text) := by
  unfold NoLength
  infer_instance

theorem toOffT_strtoull_neg (text : Bytes) : toOffT (strtoull text) < 0 ↔ NoLength text := by
  rw [strtoull_eq, NoLength, toOffT]
  generalize (leading text).2 = n
  cases (leading text).1 with
  | false =>
      simp only [Bool.false_eq_true, if_false]
      split_ifs <;> omega
  | true =>
      simp only [if_true]
      split_ifs <;> omega

/-- A text of digits begins with the number that it is. -/
theorem leading_digits {text : Bytes} (h : text.all isdigit = true) :
    leading text = (false, decimal text) := by
  have hall : ∀ b ∈ text, isdigit b = true := List.all_eq_true.mp h
  have htake : text.takeWhile isdigit = text := List.takeWhile_eq_self_iff.mpr hall
  have hcstr : cstr text = text := by
    refine List.takeWhile_eq_self_iff.mpr fun b hb => ?_
    rw [bne_iff_ne]
    rintro rfl
    exact absurd (hall 0 hb) (by decide)
  rw [leading, hcstr]
  cases text with
  | nil => rfl
  | cons b text =>
      have hb := hall b List.mem_cons_self
      have hspace : isspace b = false :=
        Bool.eq_false_iff.mpr fun hs => by rw [isdigit_of_isspace hs] at hb; cases hb
      have hminus : (b == 45) = false := beq_false_of_ne fun heq => absurd (heq ▸ hb) (by decide)
      have hplus : (b == 43) = false := beq_false_of_ne fun heq => absurd (heq ▸ hb) (by decide)
      rw [List.dropWhile_cons_of_neg (by rw [hspace]; exact Bool.false_ne_true), sign, hminus,
        hplus]
      simp only [Bool.false_eq_true, if_false, htake]

theorem decimalNumber_eq_some {text : Bytes} {n : Nat} :
    decimalNumber text = some n
      ↔ text ≠ [] ∧ text.all isdigit = true ∧ n = decimal text ∧ n < 2 ^ 63 := by
  unfold decimalNumber
  split
  · next h =>
    rw [Option.some.injEq]
    exact ⟨fun heq => ⟨h.1, h.2.1, heq.symm, heq ▸ h.2.2⟩, fun heq => heq.2.2.1.symm⟩
  · next h =>
    refine iff_of_false (fun heq => by cases heq) ?_
    rintro ⟨hne, hdigits, rfl, hlt⟩
    exact h ⟨hne, hdigits, hlt⟩

/-- What a text that is a number is converted to. -/
theorem toOffT_of_decimalNumber {text : Bytes} {n : Nat} (h : decimalNumber text = some n) :
    toOffT (strtoull text) = n ∧ ¬ NoLength text := by
  obtain ⟨-, hdigits, rfl, hlt⟩ := decimalNumber_eq_some.mp h
  have hno : ¬ NoLength text := by
    rw [NoLength, leading_digits hdigits]
    simpa using hlt
  refine ⟨?_, hno⟩
  rw [strtoull_eq, leading_digits hdigits, toOffT]
  simp only [Bool.false_eq_true, if_false]
  split_ifs <;> omega

/-! ## What the names tell -/

theorem headerType_of_sameName {k : HeaderType × Bytes} (hk : k ∈ knownNames) {name : Bytes}
    (h : sameName name k.2 = true) : headerType name = k.1 := by
  rw [headerType_congr (show name.map tolower = k.2.map tolower by simpa [sameName] using h)]
  exact (knownNames_ok k hk).2.1

/-- A line of one of the names is no status line. -/
theorem statusOf_of_sameName {k : HeaderType × Bytes} (hk : k ∈ knownNames) {curlbuf : Bytes}
    (h : sameName (fieldName curlbuf) k.2 = true) : statusOf curlbuf = none := by
  obtain ⟨-, -, b, s, hlow, hb, -⟩ := knownNames_ok k hk
  have hsame : (fieldName curlbuf).map tolower = k.2.map tolower := by simpa [sameName] using h
  obtain ⟨b', s', hname, rfl, -⟩ := List.map_eq_cons_iff.mp (hsame.trans hlow)
  unfold statusOf
  unfold fieldName at hname
  cases hline : (memtrim curlbuf).1 with
  | nil => rw [hline] at hname; cases hname
  | cons c line =>
      rw [hline, List.takeWhile_cons] at hname
      split at hname
      · obtain ⟨rfl, -⟩ := List.cons.inj hname
        refine scanStatus_cons _ ?_
        rintro rfl
        exact hb rfl
      · cases hname

theorem fieldName_of_fieldOf {curlbuf name value : Bytes}
    (h : fieldOf curlbuf = some (name, value)) : fieldName curlbuf = name ∧ value ≠ [] := by
  unfold fieldOf at h
  dsimp only at h
  split at h
  · cases h
  · next hne =>
    obtain ⟨rfl, rfl⟩ := Prod.mk.inj (Option.some.inj h)
    refine ⟨rfl, fun hnil => hne ?_⟩
    rw [hnil, List.isEmpty_nil, Bool.or_true]

theorem givenLength_status {status : Int} {curlbuf : Bytes} (h : (statusOf curlbuf).isSome) :
    givenLength status curlbuf = none := by
  unfold givenLength
  cases hfield : fieldOf curlbuf with
  | none => rfl
  | some field =>
      obtain ⟨name, value⟩ := field
      obtain ⟨rfl, -⟩ := fieldName_of_fieldOf hfield
      have hnot : ∀ k ∈ knownNames, sameName (fieldName curlbuf) k.2 = false := fun k hk =>
        Bool.eq_false_iff.mpr fun hs => by rw [statusOf_of_sameName hk hs] at h; cases h
      have hlen := hnot (.contentLength, cntLen) (by decide)
      have hrng := hnot (.contentRange, cntRng) (by decide)
      dsimp only at hlen hrng ⊢
      rw [hlen, hrng]
      simp

/-- Where the callback converts a text, the line gives a length only if
the whole name is right and the text is a number. -/
theorem givenLength_some {status : Int} {curlbuf name value text : Bytes}
    (hfield : fieldOf curlbuf = some (name, value))
    (htext : lengthText status (headerType name) value = some text) :
    givenLength status curlbuf
      = if sameName name (headerType name).name then decimalNumber text else none := by
  unfold lengthText at htext
  unfold givenLength
  rw [hfield]
  split_ifs at htext with hrange hlength
  · obtain ⟨rfl, htype⟩ := hrange
    have hdrop : (value.dropWhile (· != 47)).drop 1 = text := by
      unfold lengthPart at htext
      split at htext
      · cases htext
      · cases htext
      · next heq => rw [heq, List.drop_one, List.tail_cons, Option.some.inj htext]
    simp [htype, HeaderType.name, hdrop]
  · obtain ⟨rfl, htype⟩ := hlength
    obtain rfl := Option.some.inj htext
    simp [htype, HeaderType.name]

/-- Where it converts none, the line gives none. -/
theorem givenLength_none {status : Int} {curlbuf name value : Bytes}
    (hfield : fieldOf curlbuf = some (name, value))
    (htext : lengthText status (headerType name) value = none) :
    givenLength status curlbuf = none := by
  unfold lengthText at htext
  unfold givenLength
  rw [hfield]
  dsimp only
  split_ifs with hlength hrange
  · have htype := headerType_of_sameName (k := (.contentLength, cntLen)) (by decide) hlength.2
    simp [hlength.1, htype] at htext
  · have htype := headerType_of_sameName (k := (.contentRange, cntRng)) (by decide) hrange.2
    rw [if_pos ⟨hrange.1, htype⟩] at htext
    unfold lengthPart at htext
    split at htext
    · next heq => rw [heq]; rfl
    · next heq => rw [heq]; rfl
    · cases htext
  · rfl

/-! ## What is learnt -/

/-- The length after the line is the one that the line gives, and unknown
if it gives none. -/
def LengthAsGiven (http http' : SlHttp) (curlbuf : Bytes) : Prop :=
  ∀ n : Nat, http'.httpLen = n ↔ givenLength http.httpStatus curlbuf = some n

theorem lengthAsGiven_unknown {http http' : SlHttp} {curlbuf : Bytes} (h : http'.httpLen < 0)
    (hgiven : givenLength http.httpStatus curlbuf = none) : LengthAsGiven http http' curlbuf := by
  intro n
  rw [hgiven]
  exact iff_of_false (by omega) (fun heq => by cases heq)

/-- A field whose text is converted. -/
theorem lengthAsGiven_text {http http' : SlHttp} {curlbuf name text : Bytes} (hne : text ≠ [])
    (hlen : http'.httpLen = toOffT (strtoull text))
    (hgiven : givenLength http.httpStatus curlbuf
      = if sameName name (headerType name).name then decimalNumber text else none) :
    LengthAsGiven http http' curlbuf
      ↔ NoLength text
        ∨ (sameName name (headerType name).name = true ∧ text.all isdigit = true) := by
  by_cases hno : NoLength text
  · refine iff_of_true (lengthAsGiven_unknown ?_ ?_) (.inl hno)
    · rw [hlen]
      exact (toOffT_strtoull_neg text).mpr hno
    · rw [hgiven]
      split
      · refine Option.eq_none_iff_forall_ne_some.mpr fun n hn => ?_
        exact (toOffT_of_decimalNumber hn).2 hno
      · rfl
  · have hnonneg : 0 ≤ toOffT (strtoull text) := by
      have := mt (toOffT_strtoull_neg text).mp hno
      omega
    obtain ⟨m, hm⟩ := Int.eq_ofNat_of_zero_le hnonneg
    constructor
    · intro h
      have hsome := (h m).mp (hlen.trans hm)
      rw [hgiven] at hsome
      split at hsome
      · next hsame => exact .inr ⟨hsame, (decimalNumber_eq_some.mp hsome).2.1⟩
      · cases hsome
    · rintro (h | ⟨hsame, hdigits⟩)
      · exact absurd h hno
      · have hlt : decimal text < 2 ^ 63 := by
          rw [NoLength, leading_digits hdigits] at hno
          simpa using hno
        have hnumber : decimalNumber text = some (decimal text) :=
          decimalNumber_eq_some.mpr ⟨hne, hdigits, rfl, hlt⟩
        intro n
        rw [hgiven, if_pos hsame, hnumber, hlen, (toOffT_of_decimalNumber hnumber).1,
          Option.some.injEq]
        omega

/-- If a text of the line is converted, the whole name is right and the text
is all digits, or the number at its beginning gives no length. -/
def ConvertsNumber (http : SlHttp) (curlbuf : Bytes) : Prop :=
  ∀ name value text, statusOf curlbuf = none → fieldOf curlbuf = some (name, value) →
    lengthText http.httpStatus (headerType name) value = some text →
    NoLength text ∨ (sameName name (headerType name).name = true ∧ text.all isdigit = true)

theorem lengthPart_ne_nil {value part : Bytes} (h : lengthPart value = some part) :
    part ≠ [] := by
  unfold lengthPart at h
  split at h
  · cases h
  · cases h
  · next hnil _ =>
    rintro rfl
    exact hnil (Option.some.inj h)

theorem lengthText_ne_nil {status : Int} {type : HeaderType} {value text : Bytes}
    (hvalue : value ≠ []) (h : lengthText status type value = some text) : text ≠ [] := by
  unfold lengthText at h
  split_ifs at h
  · exact lengthPart_ne_nil h
  · exact Option.some.inj h ▸ hvalue

theorem lengthAsGiven_iff {http : SlHttp} (hunknown : http.httpLen < 0) (curlbuf : Bytes) :
    LengthAsGiven http (slHttpHeaderCb_ http curlbuf).2 curlbuf
      ↔ ConvertsNumber http curlbuf := by
  rw [headerCb_eq]
  cases hstatus : statusOf curlbuf with
  | some status =>
      refine iff_of_true (lengthAsGiven_unknown hunknown ?_) ?_
      · exact givenLength_status (by rw [hstatus]; rfl)
      · intro _ _ _ hnone
        rw [hstatus] at hnone
        cases hnone
  | none =>
      cases hfield : fieldOf curlbuf with
      | none =>
          refine iff_of_true (lengthAsGiven_unknown hunknown ?_) ?_
          · rw [givenLength, hfield]
          · intro _ _ _ _ hsome
            rw [hfield] at hsome
            cases hsome
      | some field =>
          obtain ⟨name, value⟩ := field
          have hlen := learn_httpLen http (headerType name) value
          rw [if_pos hunknown] at hlen
          cases htext : lengthText http.httpStatus (headerType name) value with
          | none =>
              refine iff_of_true (lengthAsGiven_unknown ?_ (givenLength_none hfield htext)) ?_
              · rw [hlen, htext]
                exact hunknown
              · intro _ _ _ _ hsome hconv
                obtain ⟨rfl, rfl⟩ := Prod.mk.inj (Option.some.inj (hfield.symm.trans hsome))
                rw [htext] at hconv
                cases hconv
          | some text =>
              rw [htext] at hlen
              have hne := lengthText_ne_nil (fieldName_of_fieldOf hfield).2 htext
              rw [lengthAsGiven_text hne hlen (givenLength_some hfield htext)]
              constructor
              · rintro h _ _ _ - hsome hconv
                obtain ⟨rfl, rfl⟩ := Prod.mk.inj (Option.some.inj (hfield.symm.trans hsome))
                obtain rfl := Option.some.inj (htext.symm.trans hconv)
                exact h
              · exact fun h => h name value text hstatus hfield htext

/-- A length that is known stays. -/
theorem headerCb_known_length {http : SlHttp} (hknown : 0 ≤ http.httpLen) (curlbuf : Bytes) :
    (slHttpHeaderCb_ http curlbuf).2.httpLen = http.httpLen := by
  rw [headerCb_eq]
  cases statusOf curlbuf with
  | some status => rfl
  | none =>
      cases fieldOf curlbuf with
      | none => rfl
      | some field => exact (learn_httpLen ..).trans (if_neg (by omega))

/-- End of file after a line that has been read right is by a length that
the line gives. -/
theorem eof_by_given {http http' : SlHttp} {curlbuf : Bytes} (h : LengthAsGiven http http' curlbuf)
    (heof : slHttpEofCb http' = true) :
    ∃ n : Nat, givenLength http.httpStatus curlbuf = some n ∧ (n : Int) ≤ http'.httpOff := by
  unfold slHttpEofCb at heof
  simp only [Bool.and_eq_true, decide_eq_true_eq] at heof
  obtain ⟨m, hm⟩ := Int.eq_ofNat_of_zero_le heof.2
  exact ⟨m, (h m).mp hm, hm ▸ heof.1⟩

/-- The end of a header line. -/
def crlf : Bytes := [13, 10]

/-- **The length is learnt only from a real length** by exactly the lines of
which a real number, or a number that gives no length, is converted. A
known length never changes. -/
theorem length_learnt_iff (http : SlHttp) :
    (http.httpLen < 0 → ∀ line,
        (LengthAsGiven http (slHttpHeaderCb_ http (line ++ crlf)).2 (line ++ crlf)
            ↔ ConvertsNumber http (line ++ crlf))
          ∧ (ConvertsNumber http (line ++ crlf) →
              slHttpEofCb (slHttpHeaderCb_ http (line ++ crlf)).2 = true →
              ∃ n : Nat, givenLength http.httpStatus (line ++ crlf) = some n
                ∧ (n : Int) ≤ (slHttpHeaderCb_ http (line ++ crlf)).2.httpOff))
      ∧ (0 ≤ http.httpLen → ∀ line,
          (slHttpHeaderCb_ http (line ++ crlf)).2.httpLen = http.httpLen) := by
  refine ⟨fun hunknown line => ?_, fun hknown line => headerCb_known_length hknown _⟩
  have hiff := lengthAsGiven_iff hunknown (line ++ crlf)
  exact ⟨hiff, fun hconv heof => eof_by_given (hiff.mpr hconv) heof⟩

/-- `Content-Length: 12` under status 200. -/
theorem length_learnt_iff_run :
    LengthAsGiven (.unlearnt 0 200)
        (slHttpHeaderCb_ (.unlearnt 0 200) (cntLen ++ [58, 32, 49, 50] ++ crlf)).2
        (cntLen ++ [58, 32, 49, 50] ++ crlf)
      ∧ (slHttpHeaderCb_ (.unlearnt 0 200) (cntLen ++ [58, 32, 49, 50] ++ crlf)).2.httpLen
        = 12 := by
  have hcut : fieldOf (cntLen ++ [58, 32, 49, 50] ++ crlf) = some (cntLen, [49, 50]) := by decide
  refine ⟨(((length_learnt_iff (.unlearnt 0 200)).1 (by decide) _).1).mpr ?_, by decide⟩
  intro name value text _ hfield htext
  obtain ⟨rfl, rfl⟩ := Prod.mk.inj (Option.some.inj (hfield.symm.trans hcut))
  obtain rfl : [49, 50] = text := Option.some.inj ((by decide :
    lengthText 200 (headerType cntLen) [49, 50] = some [49, 50]).symm.trans htext)
  exact .inr ⟨by decide, by decide⟩

/-- `Content-Range: bytes 0-99/*` under status 206: the length is 0. -/
theorem star_total_learnt :
    ¬ ∀ (http : SlHttp) (line : Bytes), http.httpLen < 0 →
      LengthAsGiven http (slHttpHeaderCb_ http (line ++ crlf)).2 (line ++ crlf) := by
  intro hall
  have h := hall (.unlearnt 0 206)
    (cntRng ++ [58, 32, 98, 121, 116, 101, 115, 32, 48, 45, 57, 57, 47, 42]) (by decide) 0
  exact absurd (h.mp (by decide)) (by decide)

end Streamlike
