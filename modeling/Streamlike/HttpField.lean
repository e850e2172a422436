import Streamlike.HttpHeader

/-!
# Header fields

What `sl_http_header_cb_` makes of a line, apart from how it cuts it: a
line is a status line, a field with a name and a value (`fieldOf`), or
nothing; the callback learns from a field by its type and value
(`learn`), and from nothing else (`headerCb_field`).

The type is found by comparing the beginning of the name. A name that is
one of the three in another letter case is recognised, and so is every
name that goes on behind one of them (`named_fields_iff`).
-/

namespace Streamlike

open CString

/-! ## Cutting a line -/

/-- The text before the first colon of the trimmed line. -/
def fieldName (curlbuf : Bytes) : Bytes := (memtrim curlbuf).1.takeWhile (· != 58)

/-- The status of a status line. -/
def statusOf (curlbuf : Bytes) : Option Int :=
  scanStatus ((memtrim curlbuf).1 ++ (memtrim curlbuf).2)

/-- The name and the trimmed value of a line with a colon, none without a
name or a value. -/
def fieldOf (curlbuf : Bytes) : Option (Bytes × Bytes) :=
  let name := fieldName curlbuf
  let value := (memtrim (((memtrim curlbuf).1.dropWhile (· != 58)).drop 1)).1
  if name.isEmpty || value.isEmpty then none else some (name, value)

/-- What the callback learns from a field of this type. -/
def learn (http : SlHttp) (type : HeaderType) (value : Bytes) : SlHttp :=
  learnLength (learnRange http type value) type value []

/-- Equal in any letter case. -/
def sameName (name known : Bytes) : Bool := name.map tolower == known.map tolower

theorem memtrim_spaces (mem : Bytes) : ∀ b ∈ (memtrim mem).2, isspace b = true :=
  fun _ hb => List.mem_rtakeWhile_imp hb

/-- Trimmed text does not end with a space. -/
theorem getLast_memtrim (mem : Bytes) (h : (memtrim mem).1 ≠ []) :
    isspace ((memtrim mem).1.getLast h) = false := by
  have hsuffix : (memtrim mem).1 <:+ mem.rdropWhile isspace := List.dropWhile_suffix _
  have hne : mem.rdropWhile isspace ≠ [] := by
    intro hnil
    rw [hnil] at hsuffix
    exact h (List.suffix_nil.mp hsuffix)
  rw [hsuffix.getLast h]
  simpa using List.rdropWhile_last_not isspace mem hne

/-- Nothing is cut from the end of a text that does not end with a space. -/
theorem memtrim_of_getLast {mem : Bytes}
    (h : ∀ hne : mem ≠ [], isspace (mem.getLast hne) = false) :
    memtrim mem = (mem.dropWhile isspace, []) := by
  have hdrop : mem.rdropWhile isspace = mem :=
    List.rdropWhile_eq_self_iff.mpr fun hne => by simp [h hne]
  have htake : mem.rtakeWhile isspace = [] :=
    List.rtakeWhile_eq_nil_iff.mpr fun hne => by simp [h hne]
  rw [memtrim, hdrop, htake]

theorem learnLength_append (http : SlHttp) (type : HeaderType) (value : Bytes) {after : Bytes}
    (hafter : ∀ b ∈ after, isspace b = true) :
    learnLength http type value after = learnLength http type value [] := by
  unfold learnLength
  rw [strtoull_append value hafter, List.append_nil]
  congr 1
  congr 1
  split
  · rfl
  · rfl
  · next part _ _ => rw [strtoull_append part hafter, List.append_nil]

/-- A line that is trimmed and no status line. -/
theorem headerField_eq (http : SlHttp) (curlbuf : Bytes) :
    headerField http (memtrim curlbuf).1 (memtrim curlbuf).2
      = match fieldOf curlbuf with
        | some (name, value) => learn http (headerType name) value
        | none => http := by
  have hlast := getLast_memtrim curlbuf
  have hafter := memtrim_spaces curlbuf
  unfold headerField fieldOf fieldName
  generalize (memtrim curlbuf).1 = line at hlast ⊢
  generalize (memtrim curlbuf).2 = after at hafter ⊢
  have hsuffix : line.dropWhile (· != 58) <:+ line := List.dropWhile_suffix _
  have hnil : (memtrim []).1 = [] := rfl
  generalize line.dropWhile (· != 58) = tail at hsuffix ⊢
  match tail with
  | [] => simp [hnil]
  | [_] => simp [hnil]
  | colon :: b :: rest =>
      have hdrop : (colon :: b :: rest).drop 1 = b :: rest := rfl
      have hblank : memtrim (b :: rest) = ((b :: rest).dropWhile isspace, []) := by
        refine memtrim_of_getLast fun hne => ?_
        have hsuf : b :: rest <:+ line := (List.suffix_cons colon _).trans hsuffix
        rw [hsuf.getLast hne]
        exact hlast _
      dsimp only
      rw [hdrop, hblank]
      generalize line.takeWhile (· != 58) = name
      generalize (b :: rest).dropWhile isspace = value
      cases name with
      | nil => rfl
      | cons =>
          cases value with
          | nil => rfl
          | cons => simp [learn, learnLength_append _ _ _ hafter]

/-- A status line begins with an `H`. -/
theorem scanStatus_cons {b : UInt8} (s : Bytes) (h : b ≠ 72) : scanStatus (b :: s) = none := by
  have hlit : scanLit httpLit (cstr (b :: s)) = none := by
    unfold cstr
    rw [List.takeWhile_cons]
    split
    · simp [httpLit, scanLit, Ne.symm h]
    · rfl
  simp [scanStatus, hlit]

/-- The callback: a status line sets the status, a field is learnt from,
and any other line changes nothing. -/
theorem headerCb_eq (http : SlHttp) (curlbuf : Bytes) :
    (slHttpHeaderCb_ http curlbuf).2
      = match statusOf curlbuf with
        | some status => { http with httpStatus := status }
        | none =>
          match fieldOf curlbuf with
          | some (name, value) => learn http (headerType name) value
          | none => http := by
  have hfield := headerField_eq http curlbuf
  have hspaces := memtrim_spaces curlbuf
  unfold slHttpHeaderCb_ statusOf
  split
  · next hnil => rw [List.length_eq_zero_iff.mp hnil]; rfl
  · next hne =>
    dsimp only
    rw [← hfield]
    split
    · next hblank =>
      -- a line of white space
      rw [List.isEmpty_iff.mp hblank, List.nil_append]
      cases hafter : (memtrim curlbuf).2 with
      | nil => rfl
      | cons b after =>
          have hb : b ≠ 72 := by
            rintro rfl
            exact absurd (hspaces 72 (by rw [hafter]; exact List.mem_cons_self)) (by decide)
          rw [scanStatus_cons after hb]
          rfl
    · cases scanStatus ((memtrim curlbuf).1 ++ (memtrim curlbuf).2) with
      | none => rfl
      | some status => dsimp only; split <;> rfl

/-! ## Learning from a field -/

/-- The part of a `Content-Range` behind the slash. -/
def lengthPart (value : Bytes) : Option Bytes :=
  match value.dropWhile (· != 47) with
  | [] | [_] => none
  | _ :: part => some part

/-- The text that is converted to a length. -/
def lengthText (status : Int) (type : HeaderType) (value : Bytes) : Option Bytes :=
  if status = 206 ∧ type = .contentRange then lengthPart value
  else if status = 200 ∧ type = .contentLength then some value
  else none

/-- What a field says about ranges. -/
def rangeDecision (off status : Int) (type : HeaderType) (value : Bytes) : Option RangeAllowed :=
  if type = .contentRange then some .yes
  else if off ≠ 0 ∧ status = 200 then some .no
  else if type = .acceptRanges then
    some (if memcasestartswith value bytesUnit then .yes else .no)
  else none

theorem learnRange_eq (http : SlHttp) (type : HeaderType) (value : Bytes) :
    learnRange http type value = { http with
      httpRangeAllowed :=
        if http.httpRangeAllowed = .unknown then
          (rangeDecision http.httpOff http.httpStatus type value).getD
            http.httpRangeAllowed
        else http.httpRangeAllowed } := by
  unfold learnRange rangeDecision
  split_ifs <;> rfl

theorem learnLength_eq (http : SlHttp) (type : HeaderType) (value : Bytes) :
    learnLength http type value [] = { http with
      httpLen :=
        if http.httpLen < 0 then
          ((lengthText http.httpStatus type value).map fun text => toOffT (strtoull text)).getD
            http.httpLen
        else http.httpLen } := by
  unfold learnLength lengthText lengthPart
  rw [List.append_nil]
  generalize value.dropWhile (· != 47) = tail
  match tail with
  | [] | [_] => split_ifs <;> rfl
  | _ :: _ :: _ => simp only [List.append_nil]; split_ifs <;> rfl

/-- The length is that of the first field that gives one. -/
theorem learn_httpLen (http : SlHttp) (type : HeaderType) (value : Bytes) :
    (learn http type value).httpLen
      = if http.httpLen < 0 then
          ((lengthText http.httpStatus type value).map fun text => toOffT (strtoull text)).getD
            http.httpLen
        else http.httpLen := by
  rw [learn, learnRange_eq, learnLength_eq]

/-- Range support is that of the first field that decides it. -/
theorem learn_httpRangeAllowed (http : SlHttp) (type : HeaderType) (value : Bytes) :
    (learn http type value).httpRangeAllowed
      = if http.httpRangeAllowed = .unknown then
          (rangeDecision http.httpOff http.httpStatus type value).getD
            http.httpRangeAllowed
        else http.httpRangeAllowed := by
  rw [learn, learnRange_eq, learnLength_eq]

/-! ## Fields of another name -/

/-- The three names. -/
def knownNames : List (HeaderType × Bytes) :=
  [(.contentLength, cntLen), (.contentRange, cntRng), (.acceptRanges, actRng)]

/-- The name of the line is none of the three, in any letter case. -/
def OtherName (curlbuf : Bytes) : Prop :=
  ∀ k ∈ knownNames, sameName (fieldName curlbuf) k.2 = false

/-- Nothing is learnt but that a 200 response to a request for a range
means that ranges are not supported. -/
def LearnsNothing (http http' : SlHttp) : Prop :=
  http'.httpLen = http.httpLen
    ∧ (http'.httpRangeAllowed = http.httpRangeAllowed
      ∨ (http.httpRangeAllowed = .unknown ∧ http'.httpRangeAllowed = .no
          ∧ http.httpOff ≠ 0 ∧ http.httpStatus = 200))

/-- In this state something else is learnt from a field of this type: a
length, or range support. -/
def Matters (http : SlHttp) (type : HeaderType) (value : Bytes) : Prop :=
  (http.httpLen < 0 ∧ ∃ text, lengthText http.httpStatus type value = some text
      ∧ toOffT (strtoull text) ≠ http.httpLen)
    ∨ (http.httpRangeAllowed = .unknown ∧ (type = .contentRange
        ∨ (type = .acceptRanges ∧ ¬ (http.httpOff ≠ 0 ∧ http.httpStatus = 200))))

theorem learn_httpLen_eq_iff (http : SlHttp) (type : HeaderType) (value : Bytes) :
    (learn http type value).httpLen = http.httpLen
      ↔ ¬ (http.httpLen < 0 ∧ ∃ text, lengthText http.httpStatus type value = some text
          ∧ toOffT (strtoull text) ≠ http.httpLen) := by
  rw [learn_httpLen]
  split
  · next hlen => cases lengthText http.httpStatus type value <;> simp [hlen]
  · next hlen => simp [hlen]

theorem learn_range_iff (http : SlHttp) (type : HeaderType) (value : Bytes) :
    ((learn http type value).httpRangeAllowed = http.httpRangeAllowed
        ∨ (http.httpRangeAllowed = .unknown ∧ (learn http type value).httpRangeAllowed = .no
            ∧ http.httpOff ≠ 0 ∧ http.httpStatus = 200))
      ↔ ¬ (http.httpRangeAllowed = .unknown ∧ (type = .contentRange
          ∨ (type = .acceptRanges ∧ ¬ (http.httpOff ≠ 0 ∧ http.httpStatus = 200)))) := by
  rw [learn_httpRangeAllowed]
  split
  · next hunknown =>
    unfold rangeDecision
    split_ifs with hrange hno haccept hbytes <;> simp_all
  · next hknown => simp [hknown]

theorem learn_nothing_iff (http : SlHttp) (type : HeaderType) (value : Bytes) :
    LearnsNothing http (learn http type value) ↔ ¬ Matters http type value := by
  unfold LearnsNothing Matters
  rw [learn_httpLen_eq_iff, learn_range_iff, not_or]

theorem LearnsNothing.refl (http : SlHttp) : LearnsNothing http http := ⟨rfl, .inl rfl⟩

/-! ## Fields of the three names -/

theorem memcasestartswith_eq (s1 s2 : Bytes) :
    memcasestartswith s1 s2 = (decide (s2.length ≤ (s1.map tolower).length)
      && ((s1.map tolower).take s2.length == s2.map tolower)) := by
  rw [memcasestartswith, caseEq, List.length_map, List.map_take]

/-- The type does not depend on the letter case. -/
theorem headerType_congr {name known : Bytes} (h : name.map tolower = known.map tolower) :
    headerType name = headerType known := by
  simp only [headerType, memcasestartswith_eq, h]

theorem isspace_tolower {b : UInt8} (h : isspace b = true) : isspace (tolower b) = true := by
  have hlow : tolower b = b := by
    simp only [isspace, tolower, Bool.or_eq_true, beq_iff_eq, Bool.and_eq_true,
      decide_eq_true_eq, UInt8.le_iff_toNat_le, ← UInt8.toNat_inj] at h ⊢
    rw [if_neg (by simp at h ⊢; omega)]
  rw [hlow, h]

/-- What cutting a line relies on, of the three names. -/
theorem knownNames_ok : ∀ k ∈ knownNames, 58 ∉ k.2.map tolower ∧ headerType k.2 = k.1
    ∧ ∃ b s, k.2.map tolower = b :: s ∧ b ≠ 104 ∧ isspace b = false := by
  simp only [knownNames, List.forall_mem_cons]
  refine ⟨⟨by decide, by decide, _, _, rfl, by decide, by decide⟩,
    ⟨by decide, by decide, _, _, rfl, by decide, by decide⟩,
    ⟨by decide, by decide, _, _, rfl, by decide, by decide⟩, fun _ h => by cases h⟩

theorem rdropWhile_append {p : UInt8 → Bool} (s : Bytes) {t : Bytes} (h : t.rdropWhile p ≠ []) :
    (s ++ t).rdropWhile p = s ++ t.rdropWhile p := by
  unfold List.rdropWhile at h ⊢
  rw [List.reverse_append, List.dropWhile_append, if_neg (by simpa using h),
    List.reverse_append, List.reverse_reverse]

/-- Cutting a line `lead name : rest`. -/
theorem memtrim_line {lead name rest : Bytes} (hlead : ∀ b ∈ lead, isspace b = true)
    (hname : ∃ b s, name = b :: s ∧ isspace b = false) (hrest : (memtrim rest).1 ≠ []) :
    (memtrim (lead ++ (name ++ 58 :: rest))).1 = name ++ 58 :: rest.rdropWhile isspace := by
  obtain ⟨b, s, rfl, hb⟩ := hname
  have hne : rest.rdropWhile isspace ≠ [] := by
    intro hnil
    exact hrest (by rw [memtrim, hnil]; rfl)
  have hline : (lead ++ (b :: s ++ 58 :: rest)).rdropWhile isspace
      = lead ++ (b :: s ++ 58 :: rest.rdropWhile isspace) := by
    rw [show lead ++ (b :: s ++ 58 :: rest) = (lead ++ (b :: s ++ [58])) ++ rest by simp,
      rdropWhile_append _ hne]
    simp
  rw [memtrim]
  dsimp only
  rw [hline, List.dropWhile_append_of_pos hlead]
  simp [hb]

/-- The field of a line `lead name : rest`. -/
theorem knownField_cut {k : HeaderType × Bytes} (hk : k ∈ knownNames)
    {lead name rest : Bytes} (hlead : ∀ b ∈ lead, isspace b = true)
    (hname : sameName name k.2 = true) (hrest : (memtrim rest).1 ≠ []) :
    statusOf (lead ++ (name ++ 58 :: rest)) = none
      ∧ fieldOf (lead ++ (name ++ 58 :: rest)) = some (name, (memtrim rest).1)
      ∧ headerType name = k.1 := by
  obtain ⟨hcolon, htype, b, s, hlow, hb, hspace⟩ := knownNames_ok k hk
  have hsame : name.map tolower = k.2.map tolower := by simpa [sameName] using hname
  obtain ⟨b', s', rfl, rfl, -⟩ := List.map_eq_cons_iff.mp (hsame.trans hlow)
  have hline := memtrim_line hlead ⟨b', s', rfl, Bool.eq_false_iff.mpr fun h => by
    rw [isspace_tolower h] at hspace; cases hspace⟩ hrest
  have hnocolon : ∀ x ∈ b' :: s', (x != 58) = true := by
    intro x hx
    rw [bne_iff_ne]
    rintro rfl
    exact hcolon (hsame ▸ List.mem_map_of_mem hx)
  refine ⟨?_, ?_, (headerType_congr hsame).trans htype⟩
  · rw [statusOf, hline]
    refine scanStatus_cons _ ?_
    rintro rfl
    exact hb rfl
  · have hvalue : (memtrim (rest.rdropWhile isspace)).1 = (memtrim rest).1 := by
      simp only [memtrim, List.rdropWhile_idempotent]
    simp only [fieldOf, fieldName, hline]
    rw [List.takeWhile_append_of_pos hnocolon, List.dropWhile_append_of_pos hnocolon]
    simp [hvalue, hrest]

/-- **Header fields are recognised by their whole name** where a line of
another name is no field or does not matter. A line of one of the three
names, in any letter case and behind any white space, is that field. -/
theorem named_fields_iff (http : SlHttp) :
    (∀ curlbuf, OtherName curlbuf →
        (LearnsNothing http (slHttpHeaderCb_ http curlbuf).2
          ↔ ∀ name value, statusOf curlbuf = none → fieldOf curlbuf = some (name, value) →
              ¬ Matters http (headerType name) value))
      ∧ ∀ k ∈ knownNames, ∀ lead name rest : Bytes, (∀ b ∈ lead, isspace b = true) →
          sameName name k.2 = true → (memtrim rest).1 ≠ [] →
          (slHttpHeaderCb_ http (lead ++ (name ++ 58 :: rest))).2
            = learn http k.1 (memtrim rest).1 := by
  constructor
  · intro curlbuf _
    rw [headerCb_eq]
    cases hstatus : statusOf curlbuf with
    | some status => exact iff_of_true ⟨rfl, .inl rfl⟩ fun _ _ h => by cases h
    | none =>
        cases hfield : fieldOf curlbuf with
        | none => exact iff_of_true (.refl http) fun _ _ _ h => by cases h
        | some field =>
            obtain ⟨name, value⟩ := field
            dsimp only
            rw [learn_nothing_iff]
            constructor
            · rintro h _ _ - heq
              cases heq
              exact h
            · exact fun h => h name value rfl rfl
  · intro k hk lead name rest hlead hname hrest
    obtain ⟨hstatus, hfield, htype⟩ := knownField_cut hk hlead hname hrest
    rw [headerCb_eq, hstatus, hfield]
    dsimp only
    rw [htype]

/-- A context that has learnt nothing but the status. -/
def SlHttp.unlearnt (off status : Int) : SlHttp :=
  { httpOff := off, httpLen := -1, httpStatus := status, httpRangeAllowed := .unknown
    curl := ⟨none, [], false, []⟩, curlbufOff := 0, outbufOff := 0, outbufSize := 0
    outbuf := fun _ => 0, state := .working }

/-- `X-Content-Length: 5` is another field, and `  content-length: 7 ` is
the length. -/
theorem named_fields_iff_run :
    LearnsNothing (.unlearnt 0 200)
        (slHttpHeaderCb_ (.unlearnt 0 200) ([88, 45] ++ cntLen ++ [58, 32, 53, 13, 10])).2
      ∧ (slHttpHeaderCb_ (.unlearnt 0 200)
          ([32, 32] ++ (cntLen.map tolower ++ 58 :: [32, 55, 32, 13, 10]))).2
        = learn (.unlearnt 0 200) .contentLength [55] := by
  obtain ⟨hother, hknown⟩ := named_fields_iff (.unlearnt 0 200)
  refine ⟨(hother _ (by unfold OtherName; decide)).mpr ?_, ?_⟩
  · intro name value _ hfield
    have hcut : fieldOf ([88, 45] ++ cntLen ++ [58, 32, 53, 13, 10])
        = some ([88, 45] ++ cntLen, [53]) := by decide
    obtain ⟨rfl, rfl⟩ := Prod.mk.inj (Option.some.inj (hfield.symm.trans hcut))
    unfold Matters
    decide
  · refine hknown (.contentLength, cntLen) (by decide) _ _ _ (fun b hb => ?_)
      (by decide) (by decide)
    obtain rfl : b = 32 := by simpa using hb
    rfl

/-- `Content-Length-X: 5` is taken for the length. -/
theorem extended_name_learnt :
    ¬ ∀ (http : SlHttp) (curlbuf : Bytes), OtherName curlbuf →
      LearnsNothing http (slHttpHeaderCb_ http curlbuf).2 := by
  intro hall
  have h := hall (.unlearnt 0 200) (cntLen ++ [45, 88, 58, 32, 53, 13, 10])
    (by unfold OtherName; decide)
  exact absurd h.1 (by decide)

end Streamlike
