import Streamlike.HttpLength
import Mathlib.Data.List.Nodup

/-!
# The order of header fields

Both things that header fields teach are first come, first served: the
length while it is unknown, range support while it is. A run over a block
of fields is then determined by the first field that converts a length and
the first that decides about ranges (`feed_httpLen`, `feed_range`).

Under one status only one name converts a length, so with different names
the order does not matter for it. Several names decide about ranges, and
there the first wins by design (`order_matters_iff`).
-/

namespace Streamlike

open CString

/-- Header lines fed to the callback one after the other. -/
def feed (http : SlHttp) (lines : List Bytes) : SlHttp :=
  lines.foldl (fun http line => (slHttpHeaderCb_ http line).2) http

/-- The text of the line that is converted to a length. -/
def textOf (status : Int) (line : Bytes) : Option Bytes :=
  (fieldOf line).bind fun (name, value) => lengthText status (headerType name) value

/-- What the line says about ranges. -/
def decisionOf (off status : Int) (line : Bytes) : Option RangeAllowed :=
  (fieldOf line).bind fun (name, value) => rangeDecision off status (headerType name) value

/-! ## One line -/

/-- What a field line leaves. -/
theorem headerCb_field {line : Bytes} (hline : statusOf line = none) (http : SlHttp) :
    (slHttpHeaderCb_ http line).2 = { http with
      httpLen :=
        if http.httpLen < 0 then
          ((textOf http.httpStatus line).map fun text => toOffT (strtoull text)).getD http.httpLen
        else http.httpLen
      httpRangeAllowed :=
        if http.httpRangeAllowed = .unknown then
          (decisionOf http.httpOff http.httpStatus line).getD http.httpRangeAllowed
        else http.httpRangeAllowed } := by
  rw [headerCb_eq, hline]
  unfold textOf decisionOf
  cases fieldOf line with
  | none => simp
  | some field =>
      obtain ⟨name, value⟩ := field
      simp only [Option.bind_some, learn, learnRange_eq, learnLength_eq]

theorem rangeDecision_ne_unknown {off status : Int} {type : HeaderType} {value : Bytes} :
    rangeDecision off status type value ≠ some .unknown := by
  unfold rangeDecision
  split_ifs <;> simp

theorem decisionOf_ne_unknown (off status : Int) (line : Bytes) :
    decisionOf off status line ≠ some .unknown := by
  unfold decisionOf
  cases fieldOf line with
  | none => simp
  | some field => exact rangeDecision_ne_unknown

/-- The first decision of a block is yes, no or none. -/
theorem getD_unknown_inj (off status : Int) (l l' : List Bytes) :
    (l.findSome? (decisionOf off status)).getD .unknown
        = (l'.findSome? (decisionOf off status)).getD .unknown
      ↔ l.findSome? (decisionOf off status) = l'.findSome? (decisionOf off status) := by
  have hne : ∀ l : List Bytes, l.findSome? (decisionOf off status) ≠ some .unknown := by
    intro l h
    obtain ⟨line, -, hline⟩ := List.exists_of_findSome?_eq_some h
    exact decisionOf_ne_unknown off status line hline
  have hl := hne l
  have hl' := hne l'
  generalize l.findSome? (decisionOf off status) = x at hl ⊢
  generalize l'.findSome? (decisionOf off status) = y at hl' ⊢
  cases x <;> cases y <;> simp_all [eq_comm]

/-! ## A block of lines -/

section Feed

variable {lines : List Bytes}

theorem feed_cons (http : SlHttp) (line : Bytes) :
    feed http (line :: lines) = feed (slHttpHeaderCb_ http line).2 lines := rfl

/-- The fields of a block leave the offset and the status. -/
theorem feed_frame (hlines : ∀ l ∈ lines, statusOf l = none) (http : SlHttp) :
    (feed http lines).httpOff = http.httpOff ∧ (feed http lines).httpStatus = http.httpStatus := by
  induction lines generalizing http with
  | nil => exact ⟨rfl, rfl⟩
  | cons line lines ih =>
      obtain ⟨hoff, hstatus⟩ := ih (fun l hl => hlines l (List.mem_cons_of_mem _ hl))
        (slHttpHeaderCb_ http line).2
      rw [headerCb_field (hlines line List.mem_cons_self)] at hoff hstatus
      rw [feed_cons, headerCb_field (hlines line List.mem_cons_self)]
      exact ⟨hoff, hstatus⟩

/-- Range support after a block: the first line that decides. -/
theorem feed_range (hlines : ∀ l ∈ lines, statusOf l = none) (http : SlHttp) :
    (feed http lines).httpRangeAllowed
      = if http.httpRangeAllowed = .unknown then
          (lines.findSome? (decisionOf http.httpOff http.httpStatus)).getD .unknown
        else http.httpRangeAllowed := by
  induction lines generalizing http with
  | nil => simp [feed]
  | cons line lines ih =>
      have hrest := ih (fun l hl => hlines l (List.mem_cons_of_mem _ hl))
        (slHttpHeaderCb_ http line).2
      rw [feed_cons, hrest, headerCb_field (hlines line List.mem_cons_self)]
      dsimp only
      rw [List.findSome?_cons]
      have hne := decisionOf_ne_unknown http.httpOff http.httpStatus line
      cases hdec : decisionOf http.httpOff http.httpStatus line with
      | none => split <;> simp_all
      | some r => split <;> simp_all

/-- The length after a block of which at most one line converts a text. -/
theorem feed_httpLen (hlines : ∀ l ∈ lines, statusOf l = none) (http : SlHttp)
    (hone : lines.Pairwise fun a b =>
      textOf http.httpStatus a = none ∨ textOf http.httpStatus b = none) :
    (feed http lines).httpLen
      = if http.httpLen < 0 then
          ((lines.findSome? (textOf http.httpStatus)).map fun text => toOffT (strtoull text)).getD
            http.httpLen
        else http.httpLen := by
  induction lines generalizing http with
  | nil => simp [feed]
  | cons line lines ih =>
      rw [List.pairwise_cons] at hone
      have hcb := headerCb_field (hlines line List.mem_cons_self) http
      have hrest := ih (fun l hl => hlines l (List.mem_cons_of_mem _ hl))
        (slHttpHeaderCb_ http line).2 (by rw [hcb]; exact hone.2)
      rw [feed_cons, hrest, hcb]
      dsimp only
      rw [List.findSome?_cons]
      cases htext : textOf http.httpStatus line with
      | none => split <;> simp_all
      | some text =>
          -- no later line converts one
          have hnone : lines.findSome? (textOf http.httpStatus) = none :=
            List.findSome?_eq_none_iff.mpr fun l hl => (hone.1 l hl).resolve_left (by simp [htext])
          rw [hnone]
          split <;> simp_all

end Feed

/-! ## Permutations -/

/-- All elements of the list for which `f` has a value have the same. -/
def AgreeOn {ι κ : Type} (f : ι → Option κ) (l : List ι) : Prop :=
  ∀ a ∈ l, ∀ b ∈ l, ∀ r r', f a = some r → f b = some r' → r = r'

/-- The first value of a list does not depend on its order exactly when
there is only one. -/
theorem findSome?_perm_iff {ι κ : Type} [BEq ι] [LawfulBEq ι] (f : ι → Option κ) (l : List ι) :
    (∀ l' : List ι, l'.Perm l → l'.findSome? f = l.findSome? f) ↔ AgreeOn f l := by
  constructor
  · intro h a ha b hb r r' hr hr'
    have hfirst := h (a :: l.erase a) (List.perm_cons_erase ha).symm
    have hsecond := h (b :: l.erase b) (List.perm_cons_erase hb).symm
    rw [List.findSome?_cons_of_isSome (by rw [hr]; rfl), hr] at hfirst
    rw [List.findSome?_cons_of_isSome (by rw [hr']; rfl), hr'] at hsecond
    exact Option.some.inj (hfirst.trans hsecond.symm)
  · intro h l' hp
    cases hl : l.findSome? f with
    | none =>
        rw [List.findSome?_eq_none_iff] at hl ⊢
        exact fun x hx => hl x (hp.mem_iff.mp hx)
    | some r =>
        obtain ⟨a, ha, har⟩ := List.exists_of_findSome?_eq_some hl
        cases hl' : l'.findSome? f with
        | none =>
            rw [List.findSome?_eq_none_iff] at hl'
            rw [hl' a (hp.mem_iff.mpr ha)] at har
            cases har
        | some r' =>
            obtain ⟨b, hb, hbr⟩ := List.exists_of_findSome?_eq_some hl'
            rw [h a ha b (hp.mem_iff.mp hb) r r' har hbr]

/-- Names that begin with one of the three are that name. -/
def WholeNames (lines : List Bytes) : Prop :=
  ∀ l ∈ lines, headerType (fieldName l) ≠ .other →
    sameName (fieldName l) (headerType (fieldName l)).name = true

/-- Pairwise different names. -/
def DifferentNames (lines : List Bytes) : Prop :=
  (lines.map fun l => (fieldName l).map tolower).Nodup

/-- Under one status, lines that convert a text have one type. -/
theorem textOf_type {status : Int} {line text : Bytes} (h : textOf status line = some text) :
    headerType (fieldName line) = if status = 206 then .contentRange else .contentLength := by
  obtain ⟨⟨name, value⟩, hfield, htext⟩ := Option.bind_eq_some_iff.mp h
  rw [(fieldName_of_fieldOf hfield).1]
  unfold lengthText at htext
  dsimp only at htext
  split_ifs at htext with hrange hlength
  · rw [if_pos hrange.1, hrange.2]
  · rw [if_neg (by rw [hlength.1]; decide), hlength.2]

/-- So they have one name. -/
theorem textOf_name {status : Int} {lines : List Bytes} (hwhole : WholeNames lines) {a b : Bytes}
    (ha : a ∈ lines) (hb : b ∈ lines) {text text' : Bytes} (hta : textOf status a = some text)
    (htb : textOf status b = some text') :
    (fieldName a).map tolower = (fieldName b).map tolower := by
  have hne : (if status = 206 then HeaderType.contentRange else .contentLength) ≠ .other := by
    split <;> decide
  have hna := hwhole a ha (by rw [textOf_type hta]; exact hne)
  have hnb := hwhole b hb (by rw [textOf_type htb]; exact hne)
  rw [textOf_type hta, sameName, beq_iff_eq] at hna
  rw [textOf_type htb, sameName, beq_iff_eq] at hnb
  exact hna.trans hnb.symm

section Order

variable (http : SlHttp) {lines : List Bytes}

/-- One length, in every order. -/
theorem httpLen_perm (hlines : ∀ l ∈ lines, statusOf l = none) (hnames : DifferentNames lines)
    (hwhole : WholeNames lines) {lines' : List Bytes} (hp : lines'.Perm lines) :
    (feed http lines').httpLen = (feed http lines).httpLen := by
  have hone : ∀ {l : List Bytes}, l.Perm lines → l.Pairwise fun a b =>
      textOf http.httpStatus a = none ∨ textOf http.httpStatus b = none := by
    intro l hl
    have hnodup : DifferentNames l := (hl.map _).nodup_iff.mpr hnames
    refine List.Pairwise.imp_of_mem (fun {a b} ha hb hab => ?_) (List.pairwise_map.mp hnodup)
    by_contra hboth
    obtain ⟨hta, htb⟩ := not_or.mp hboth
    obtain ⟨text, hta⟩ := Option.ne_none_iff_exists'.mp hta
    obtain ⟨text', htb⟩ := Option.ne_none_iff_exists'.mp htb
    exact hab (textOf_name hwhole (hl.mem_iff.mp ha) (hl.mem_iff.mp hb) hta htb)
  have hagree : AgreeOn (textOf http.httpStatus) lines := by
    intro a ha b hb text text' hta htb
    obtain rfl := List.inj_on_of_nodup_map hnames ha hb (textOf_name hwhole ha hb hta htb)
    exact Option.some.inj (hta.symm.trans htb)
  rw [feed_httpLen (fun l hl => hlines l (hp.mem_iff.mp hl)) http (hone hp),
    feed_httpLen hlines http (hone (.refl _)), (findSome?_perm_iff _ _).mpr hagree lines' hp]

/-- Range support, in every order, unless two lines of the block decide it
differently. -/
theorem range_perm_iff (hlines : ∀ l ∈ lines, statusOf l = none) :
    (∀ lines' : List Bytes, lines'.Perm lines →
        (feed http lines').httpRangeAllowed = (feed http lines).httpRangeAllowed)
      ↔ http.httpRangeAllowed ≠ .unknown
        ∨ AgreeOn (decisionOf http.httpOff http.httpStatus) lines := by
  have hfeed : ∀ {l : List Bytes}, l.Perm lines → (feed http l).httpRangeAllowed
      = if http.httpRangeAllowed = .unknown then
          (l.findSome? (decisionOf http.httpOff http.httpStatus)).getD .unknown
        else http.httpRangeAllowed :=
    fun hp => feed_range (fun l hl => hlines l (hp.mem_iff.mp hl)) http
  by_cases hunknown : http.httpRangeAllowed = .unknown
  · have hiff : (http.httpRangeAllowed ≠ .unknown
        ∨ AgreeOn (decisionOf http.httpOff http.httpStatus) lines)
        ↔ AgreeOn (decisionOf http.httpOff http.httpStatus) lines := by simp [hunknown]
    rw [hiff, ← findSome?_perm_iff]
    refine forall₂_congr fun lines' hp => ?_
    rw [hfeed hp, hfeed (.refl _), if_pos hunknown, if_pos hunknown]
    exact getD_unknown_inj _ _ _ _
  · refine iff_of_true (fun lines' hp => ?_) (.inl hunknown)
    rw [hfeed hp, hfeed (.refl _), if_neg hunknown, if_neg hunknown]

end Order

/-- **The order of header fields** matters for range support alone, and
there exactly when it was unknown and two lines of the block decide it
differently. Then the first line that decides wins. -/
theorem order_matters_iff (http : SlHttp) (status : Bytes) (st : Int) (lines : List Bytes)
    (hstatus : statusOf status = some st) (hlines : ∀ l ∈ lines, statusOf l = none)
    (hnames : DifferentNames lines) (hwhole : WholeNames lines) :
    (∀ lines' : List Bytes, lines'.Perm lines →
        slHttpLengthCb (feed http (status :: lines')) = slHttpLengthCb (feed http (status :: lines))
          ∧ slHttpEofCb (feed http (status :: lines')) = slHttpEofCb (feed http (status :: lines)))
      ∧ ((∀ lines' : List Bytes, lines'.Perm lines →
            (feed http (status :: lines')).httpRangeAllowed
              = (feed http (status :: lines)).httpRangeAllowed)
          ↔ http.httpRangeAllowed ≠ .unknown ∨ AgreeOn (decisionOf http.httpOff st) lines)
      ∧ ((http.httpRangeAllowed ≠ .unknown ∨ AgreeOn (decisionOf http.httpOff st) lines) →
          ∀ lines' : List Bytes, lines'.Perm lines →
            slHttpSeekableCb (feed http (status :: lines'))
              = slHttpSeekableCb (feed http (status :: lines)))
      ∧ (http.httpRangeAllowed = .unknown → ∀ lines' : List Bytes, lines'.Perm lines →
          (feed http (status :: lines')).httpRangeAllowed
            = (lines'.findSome? (decisionOf http.httpOff st)).getD .unknown) := by
  have hfirst : ∀ l, feed http (status :: l) = feed { http with httpStatus := st } l := by
    intro l
    rw [feed_cons, headerCb_eq, hstatus]
  simp only [hfirst]
  have hrange := range_perm_iff { http with httpStatus := st } hlines
  refine ⟨fun lines' hp => ?_, hrange, fun hagree lines' hp => ?_, fun hunknown lines' hp => ?_⟩
  · have hlen := httpLen_perm { http with httpStatus := st } hlines hnames hwhole hp
    have hoff := (feed_frame hlines { http with httpStatus := st }).1
    have hoff' := (feed_frame (fun l hl => hlines l (hp.mem_iff.mp hl))
      { http with httpStatus := st }).1
    refine ⟨hlen, ?_⟩
    unfold slHttpEofCb
    rw [hlen, hoff, hoff']
  · unfold slHttpSeekableCb
    rw [hrange.mpr hagree lines' hp]
  · rw [feed_range fun l hl => hlines l (hp.mem_iff.mp hl)]
    exact if_pos hunknown

/-- `HTTP/1.1 206`. -/
def partialContent : Bytes := httpLit ++ [49, 46, 49, 32, 50, 48, 54, 13, 10]

/-- `Accept-Ranges: none`. -/
def rangesNone : Bytes := actRng ++ [58, 32, 110, 111, 110, 101, 13, 10]

/-- `Content-Range: bytes 0-1/2`. -/
def rangeOfTwo : Bytes :=
  cntRng ++ [58, 32, 98, 121, 116, 101, 115, 32, 48, 45, 49, 47, 50, 13, 10]

/-- `Date: 1`. -/
def dateField : Bytes := [68, 97, 116, 101, 58, 32, 49, 13, 10]

/-- A `Content-Range` and a `Date` in either order. -/
theorem order_matters_iff_run :
    slHttpSeekableCb (feed (.unlearnt 0 0) [partialContent, dateField, rangeOfTwo])
      = slHttpSeekableCb (feed (.unlearnt 0 0) [partialContent, rangeOfTwo, dateField]) := by
  refine (order_matters_iff (.unlearnt 0 0) partialContent 206 [rangeOfTwo, dateField]
    (by decide) (by decide) (by unfold DifferentNames; decide)
    (by unfold WholeNames; decide)).2.2.1 (.inr ?_) [dateField, rangeOfTwo] (.swap _ _ [])
  have hdate : decisionOf (SlHttp.unlearnt 0 0).httpOff 206 dateField = none := by decide
  intro a ha b hb r r' hr hr'
  simp only [List.mem_cons, List.not_mem_nil, or_false] at ha hb
  rcases ha with rfl | rfl
  · rcases hb with rfl | rfl
    · exact Option.some.inj (hr.symm.trans hr')
    · rw [hdate] at hr'
      cases hr'
  · rw [hdate] at hr
    cases hr

/-- A `Content-Range` before or behind `Accept-Ranges: none`. -/
theorem order_of_ranges_matters :
    ¬ ∀ (http : SlHttp) (status : Bytes) (st : Int) (lines lines' : List Bytes),
      statusOf status = some st → st ≠ 416 → (∀ l ∈ lines, statusOf l = none) →
      DifferentNames lines → lines'.Perm lines →
      (feed http (status :: lines')).httpRangeAllowed
          = (feed http (status :: lines)).httpRangeAllowed := by
  intro hall
  have h := hall (.unlearnt 0 0) partialContent 206 [rangeOfTwo, rangesNone]
    [rangesNone, rangeOfTwo] (by decide) (by decide) (by decide)
    (by unfold DifferentNames; decide) (.swap _ _ [])
  exact absurd h (by decide)

end Streamlike
