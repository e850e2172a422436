import Streamlike.HttpEof
import Streamlike.HttpLearn
import Streamlike.TestServer

/-!
# Responses

What `test_server_handler` answers, as libcurl delivers it, and what the
stream learns from it. The daemon and libcurl are free in the reason phrase,
the order of the header lines, the headers they add of their own and how
the body is cut into chunks (`Sent`).

An answer carries the part of the content that was asked for, and tells
the length of the whole and that ranges are allowed, before its first byte
(`Carries`); the answer to a range behind the content carries nothing
(`answered_none`, `answered_seek`).
-/

namespace Streamlike

open CString CFormat

/-! ## A response on the wire -/

/-- `HTTP/1.1 <status> <reason>`. -/
def responseLine (status : Nat) (reason : Bytes) : Bytes :=
  lit "HTTP/1.1 " ++ (digits status ++ (lit " " ++ (reason ++ crlf)))

/-- `<name>: <value>`. -/
def fieldLine (field : Bytes × Bytes) : Bytes := field.1 ++ 58 :: (lit " " ++ (field.2 ++ crlf))

/-- The header lines of a response: those of its fields, and the length of
its body. -/
def Response.lines (r : Response) : List Bytes :=
  (r.fields ++ [(cntLen, digits r.body.length)]).map fieldLine

/-- A line that is no status line and none of the fields that are learnt
from; the blank line is one. -/
def Unrelated (line : Bytes) : Prop :=
  statusOf line = none ∧ headerType (fieldName line) = .other

/-- The response comes as these events: the status line, the header lines in
any order and with others among them, and the body in chunks. -/
def Sent (r : Response) (events : List CurlEvent) : Prop :=
  ∃ (reason : Bytes) (lines others chunks : List Bytes), lines.Perm (r.lines ++ others)
    ∧ (∀ line ∈ others, Unrelated line) ∧ chunks.flatten = r.body
    ∧ events = .header (responseLine r.status reason)
        :: (lines.map .header ++ chunks.map .chunk)

/-- What a request of libcurl has in the way of a `Range`, with this range
option. -/
def Asks (range : Option String) (request : List (Bytes × Bytes)) : Prop :=
  match range with
  | none => ∀ field ∈ request, sameName field.1 (lit "range") = false
  | some range => HasRange request (lit "bytes=" ++ lit range)

/-- The server's answer to the request with this range option. -/
def Answered (server : TestServer) (range : Option String) (events : List CurlEvent) : Prop :=
  ∃ request r, Asks range request ∧ testServerHandler server true request = some r
    ∧ Sent r events

/-! ## Reading the lines -/

/-- A text that begins with no space is trimmed at its end only. -/
theorem memtrim_append {b : UInt8} (s : Bytes) (h : isspace b = false) :
    (memtrim (b :: s)).1 ++ (memtrim (b :: s)).2 = b :: s := by
  have hsplit : (b :: s).rdropWhile isspace ++ (b :: s).rtakeWhile isspace = b :: s := by
    rw [List.rdropWhile, List.rtakeWhile, ← List.reverse_append, List.takeWhile_append_dropWhile,
      List.reverse_reverse]
  rw [memtrim]
  dsimp only
  cases hdrop : (b :: s).rdropWhile isspace with
  | nil =>
      -- all of it would be space
      rw [List.rdropWhile_eq_nil_iff] at hdrop
      rw [hdrop b List.mem_cons_self] at h
      cases h
  | cons c t =>
      rw [hdrop] at hsplit
      obtain ⟨rfl, -⟩ := List.cons.inj hsplit
      rw [List.dropWhile_cons_of_neg (by rw [h]; exact Bool.false_ne_true), hsplit]

theorem cstr_append {s : Bytes} (t : Bytes) (h : ∀ b ∈ s, (b != 0) = true) :
    cstr (s ++ t) = s ++ cstr t :=
  List.takeWhile_append_of_pos h

theorem ne_nul_of_isdigit {b : UInt8} (h : isdigit b = true) : (b != 0) = true := by
  rw [bne_iff_ne]
  rintro rfl
  cases h

theorem statusOf_responseLine {status : Nat} (hint : status < 2 ^ 31) (reason : Bytes) :
    statusOf (responseLine status reason) = some (status : Int) := by
  have hline : statusOf (responseLine status reason)
      = scanStatus (lit "HTTP/1.1 " ++ (digits status ++ (lit " " ++ (reason ++ crlf)))) := by
    rw [statusOf, responseLine]
    exact congrArg scanStatus (memtrim_append _ (by decide))
  have hspace : (lit " " ++ cstr (reason ++ crlf)).takeWhile isdigit = [] := rfl
  rw [hline, scanStatus, cstr_append _ (by decide +kernel),
    cstr_append _ fun b hb => ne_nul_of_isdigit (isdigit_digits status b hb),
    cstr_append _ (by decide +kernel),
    show lit "HTTP/1.1 " = httpLit ++ lit "1.1 " from by decide, List.append_assoc,
    scanLit_append]
  generalize hrest : digits status ++ (lit " " ++ cstr (reason ++ crlf)) = rest
  have hword : scanWord 3 (lit "1.1 " ++ rest) = some (32 :: rest) := rfl
  have hblank : scanSpace (32 :: rest) = rest := by
    rw [← hrest]
    exact scanSpace_digits (digits_ne_nil status) (isdigit_digits status)
  have hscan : scanInt rest = some ((status : Int), lit " " ++ cstr (reason ++ crlf)) := by
    have hdigits := scanInt_digits (digits_ne_nil status) (isdigit_digits status) hspace
      (by rwa [decimal_digits])
    rwa [hrest, decimal_digits] at hdigits
  simp [hword, hblank, hscan]

/-- A value between a space and the end of its line. -/
theorem memtrim_value {value : Bytes} {b : UInt8} {s : Bytes} (hb : value = b :: s)
    (hspace : isspace b = false) (hne : value ≠ [])
    (hlast : isspace (value.getLast hne) = false) :
    (memtrim (lit " " ++ (value ++ crlf))).1 = value := by
  have hcrlf : ∀ c ∈ crlf.reverse, isspace c = true := by decide +kernel
  have hdrop : (lit " " ++ (value ++ crlf)).rdropWhile isspace = lit " " ++ value := by
    rw [← List.append_assoc, List.rdropWhile, List.reverse_append,
      List.dropWhile_append_of_pos hcrlf]
    show List.rdropWhile isspace (lit " " ++ value) = _
    rw [List.rdropWhile_eq_self_iff]
    intro hne'
    rw [List.getLast_append_of_ne_nil hne' hne, hlast]
    exact Bool.false_ne_true
  rw [memtrim, hdrop]
  subst hb
  show (b :: s).dropWhile isspace = b :: s
  rw [List.dropWhile_cons_of_neg (by rw [hspace]; exact Bool.false_ne_true)]

/-- The line of a known field. -/
theorem fieldLine_cut {k : HeaderType × Bytes} (hk : k ∈ knownNames) {value : Bytes} {b : UInt8}
    {s : Bytes} (hb : value = b :: s) (hspace : isspace b = false) (hne : value ≠ [])
    (hlast : isspace (value.getLast hne) = false) :
    statusOf (fieldLine (k.2, value)) = none ∧ fieldOf (fieldLine (k.2, value)) = some (k.2, value)
      ∧ headerType k.2 = k.1 := by
  have hvalue := memtrim_value hb hspace hne hlast
  have hlead : ∀ b ∈ ([] : Bytes), isspace b = true := nofun
  have hrest : (memtrim (lit " " ++ (value ++ crlf))).1 ≠ [] := by rw [hvalue]; exact hne
  have hcut := knownField_cut hk hlead (beq_self_eq_true (k.2.map tolower)) hrest
  rwa [hvalue] at hcut

theorem isspace_of_isdigit {b : UInt8} (h : isdigit b = true) : isspace b = false :=
  Bool.eq_false_iff.mpr fun hs => by rw [isdigit_of_isspace hs] at h; cases h

theorem toOffT_digits {n : Nat} (h : n < 2 ^ 63) : toOffT (strtoull (digits n)) = n :=
  (toOffT_of_decimalNumber (decimalNumber_eq_some.mpr ⟨digits_ne_nil n,
    List.all_eq_true.mpr (isdigit_digits n), (decimal_digits n).symm, h⟩)).1

/-! ## What the lines tell -/

/-- Under this status the line gives no length but `L`, and does not deny
ranges. -/
structure Tells (L off status : Int) (line : Bytes) : Prop where
  field : statusOf line = none
  length : ∀ text, textOf status line = some text → toOffT (strtoull text) = L
  range : ∀ range, decisionOf off status line = some range → range = .yes

theorem Unrelated.tells {line : Bytes} (h : Unrelated line) (L : Int) {off status : Int}
    (hasked : off = 0 ∨ status ≠ 200) : Tells L off status line := by
  obtain ⟨hstatus, htype⟩ := h
  have hother : ∀ name value, fieldOf line = some (name, value) → headerType name = .other := by
    intro name value hfield
    rw [← (fieldName_of_fieldOf hfield).1]
    exact htype
  refine ⟨hstatus, fun text htext => ?_, fun range hrange => ?_⟩
  · obtain ⟨⟨name, value⟩, hfield, htext⟩ := Option.bind_eq_some_iff.mp htext
    simp [lengthText, hother name value hfield] at htext
  · obtain ⟨⟨name, value⟩, hfield, hrange⟩ := Option.bind_eq_some_iff.mp hrange
    simp only [rangeDecision, hother name value hfield, reduceCtorEq, if_false] at hrange
    split_ifs at hrange with h200
    rcases hasked with hoff | hstatus
    · exact absurd hoff h200.1
    · exact absurd h200.2 hstatus

section Lines

variable {L : Nat}

/-- `Content-Length`. -/
theorem tells_length (n : Nat) (off status : Int) (h : status = 200 → n = L ∧ off = 0)
    (hL : L < 2 ^ 63) :
    Tells L off status (fieldLine (cntLen, digits n))
      ∧ (status = 200 → textOf status (fieldLine (cntLen, digits n)) ≠ none) := by
  cases hdigits : digits n with
  | nil => exact absurd hdigits (digits_ne_nil n)
  | cons b s =>
      have hall := isdigit_digits n
      rw [hdigits] at hall
      obtain ⟨hstatus, hfield, htype⟩ := fieldLine_cut (k := (.contentLength, cntLen)) (by decide)
        rfl (isspace_of_isdigit (hall b List.mem_cons_self)) nofun
        (isspace_of_isdigit (hall _ (List.getLast_mem _)))
      have htext : textOf status (fieldLine (cntLen, b :: s))
          = if status = 200 then some (b :: s) else none := by
        rw [textOf, hfield]
        simp [lengthText, htype]
      have hrange : decisionOf off status (fieldLine (cntLen, b :: s))
          = if off ≠ 0 ∧ status = 200 then some .no else none := by
        rw [decisionOf, hfield]
        simp [rangeDecision, htype]
      refine ⟨⟨hstatus, fun text heq => ?_, fun range heq => ?_⟩, fun h200 => ?_⟩
      · rw [htext] at heq
        split_ifs at heq with h200
        obtain rfl := Option.some.inj heq
        obtain ⟨rfl, -⟩ := h h200
        rw [← hdigits, toOffT_digits hL]
      · rw [hrange] at heq
        split_ifs at heq with h200
        exact absurd (h h200.2).2 h200.1
      · rw [htext, if_pos h200]
        nofun

/-- `Accept-Ranges: bytes`. -/
theorem tells_acceptRanges :
    Tells L 0 200 (fieldLine (actRng, bytesUnit))
      ∧ decisionOf 0 200 (fieldLine (actRng, bytesUnit)) ≠ none := by
  have hcut : statusOf (fieldLine (actRng, bytesUnit)) = none
      ∧ textOf 200 (fieldLine (actRng, bytesUnit)) = none
      ∧ decisionOf 0 200 (fieldLine (actRng, bytesUnit)) = some .yes := by decide
  obtain ⟨hstatus, htext, hrange⟩ := hcut
  refine ⟨⟨hstatus, fun text h => ?_, fun range h => ?_⟩, ?_⟩
  · rw [htext] at h
    cases h
  · rw [hrange] at h
    exact (Option.some.inj h).symm
  · rw [hrange]
    nofun

/-- `Content-Range`. -/
theorem tells_contentRange (range_start range_end : Nat) (hstart : range_start < 2 ^ 64)
    (hend : range_end < 2 ^ 64) (hL : L < 2 ^ 63) (off : Int) :
    Tells L off 206 (fieldLine (cntRng, contentRange range_start range_end L))
      ∧ textOf 206 (fieldLine (cntRng, contentRange range_start range_end L)) ≠ none
      ∧ decisionOf off 206 (fieldLine (cntRng, contentRange range_start range_end L)) ≠ none := by
  have hrange := contentRange_eq hstart hend (hL.trans (by decide) : L < 2 ^ 64)
  have hne : digits L ≠ [] := digits_ne_nil L
  have hvalue : contentRange range_start range_end L ≠ [] := by
    rw [hrange]
    simp [hne]
  have hlast : isspace ((contentRange range_start range_end L).getLast hvalue) = false := by
    simp only [hrange]
    rw [List.getLast_append_of_ne_nil _ hne]
    exact isspace_of_isdigit (isdigit_digits L _ (List.getLast_mem hne))
  obtain ⟨s, hs⟩ : ∃ s, contentRange range_start range_end L = 98 :: s := by
    rw [hrange]
    exact ⟨_, rfl⟩
  obtain ⟨hstatus, hfield, htype⟩ := fieldLine_cut (k := (.contentRange, cntRng)) (by decide) hs
    (by decide) hvalue hlast
  have hpart : lengthPart (contentRange range_start range_end L) = some (digits L) := by
    have hno : ∀ n, ∀ b ∈ digits n, (b != 47) = true := fun n b hb => by
      rw [bne_iff_ne]
      rintro rfl
      exact absurd (isdigit_digits n 47 hb) (by decide)
    rw [lengthPart, hrange]
    simp only [List.append_assoc]
    rw [List.dropWhile_append_of_pos (by decide +kernel), List.dropWhile_append_of_pos (hno _),
      List.dropWhile_append_of_pos (by decide +kernel), List.dropWhile_append_of_pos (hno _)]
    cases hdigits : digits L with
    | nil => exact absurd hdigits hne
    | cons b s => rfl
  have htext : textOf 206 (fieldLine (cntRng, contentRange range_start range_end L))
      = some (digits L) := by
    rw [textOf, hfield]
    simp [lengthText, htype, hpart]
  have hyes : decisionOf off 206 (fieldLine (cntRng, contentRange range_start range_end L))
      = some .yes := by
    rw [decisionOf, hfield]
    simp [rangeDecision, htype]
  refine ⟨⟨hstatus, fun text h => ?_, fun range h => ?_⟩, ?_, ?_⟩
  · rw [htext] at h
    obtain rfl := Option.some.inj h
    exact toOffT_digits hL
  · rw [hyes] at h
    exact (Option.some.inj h).symm
  · rw [htext]
    nofun
  · rw [hyes]
    nofun

end Lines

/-! ## Learning from a response -/

/-- What may have been learnt of a stream of length `L`. -/
def Learnt.Sound (L : Int) (l : Learnt) : Prop :=
  (l.len = -1 ∨ l.len = L) ∧ (l.range = .unknown ∨ l.range = .yes)

/-- All there is to learn of it. -/
def Learnt.Whole (L : Int) (l : Learnt) : Prop := l.len = L ∧ l.range = .yes

/-- Whatever comes is sound, and everything is learnt before the first
chunk, behind which there are no header lines. -/
def Learns (L : Int) : Learnt → List CurlEvent → Prop
  | l, [] => l.Sound L
  | l, .header line :: events =>
      l.Sound L ∧ (l.hear line).Sound L
        ∧ (unsatisfiable line = true ∨ Learns L (l.hear line) events)
  | l, .chunk _ :: events => l.Whole L ∧ ∀ e ∈ events, ∃ b, e = .chunk b

theorem Learnt.Whole.sound {L : Int} {l : Learnt} (h : l.Whole L) : l.Sound L :=
  ⟨.inr h.1, .inr h.2⟩

theorem Learns.sound {L : Int} {l : Learnt} {events : List CurlEvent} (h : Learns L l events) :
    l.Sound L := by
  cases events with
  | nil => exact h
  | cons e events =>
      cases e with
      | header line => exact h.1
      | chunk b => exact h.1.sound

theorem Learnt.Whole.learns {L : Int} {l : Learnt} {events : List CurlEvent} (h : l.Whole L)
    (hevents : ∀ e ∈ events, ∃ b, e = .chunk b) : Learns L l events := by
  cases events with
  | nil => exact h.sound
  | cons e events =>
      obtain ⟨b, rfl⟩ := hevents e List.mem_cons_self
      exact ⟨h, fun e he => hevents e (List.mem_cons_of_mem _ he)⟩

theorem Learnt.hear_off (l : Learnt) (line : Bytes) : (l.hear line).off = l.off := by
  unfold hear
  split <;> rfl

theorem Learnt.Whole.keeps {L : Int} (hL : 0 ≤ L) {l l' : Learnt} (h : l.Whole L)
    (hkeeps : l.Keeps l') : l'.Whole L :=
  ⟨(hkeeps.1 (h.1 ▸ hL)).trans h.1, (hkeeps.2 (by rw [h.2]; nofun)).trans h.2⟩

/-- Along the events what is learnt is sound, and it is whole once a byte
has been delivered. -/
theorem Heard.learns {L : Int} (hL : 0 ≤ L) {x y : Learnt × List CurlEvent} (h : Heard x y)
    (hx : Learns L x.1 x.2) : Learns L y.1 y.2 ∧ (y.1.off = x.1.off ∨ y.1.Whole L) := by
  induction h with
  | refl => exact ⟨hx, .inl rfl⟩
  | tail _ hone ih =>
      obtain ⟨hlearns, hoff⟩ := ih
      cases hone with
      | header l line events =>
          obtain ⟨-, hsound, hrest⟩ := hlearns
          refine ⟨?_, hoff.imp (fun h => (l.hear_off line).trans h)
            fun h => h.keeps hL (l.keeps_hear line)⟩
          dsimp only
          split
          · exact hsound
          · next hsat => exact hrest.resolve_left hsat
      | taken l b events n =>
          obtain ⟨⟨hlen, hrange⟩, hevents⟩ := hlearns
          exact ⟨Learnt.Whole.learns ⟨hlen, hrange⟩ hevents, .inr ⟨hlen, hrange⟩⟩
      | part l b events n =>
          obtain ⟨⟨hlen, hrange⟩, hevents⟩ := hlearns
          exact ⟨⟨⟨hlen, hrange⟩, hevents⟩, .inr ⟨hlen, hrange⟩⟩
      | cut l b events => exact ⟨hlearns.1.sound, .inr hlearns.1⟩

theorem or_exists_of_cons {ι : Type} {P : Prop} {Q : ι → Prop} {a : ι} {l : List ι}
    (h : P ∨ ∃ b ∈ a :: l, Q b) (ha : ¬ Q a) : P ∨ ∃ b ∈ l, Q b := by
  refine h.imp_right ?_
  rintro ⟨b, hb, hQ⟩
  rcases List.mem_cons.mp hb with rfl | hb
  · exact absurd hQ ha
  · exact ⟨b, hb, hQ⟩

/-- A block of lines that tell the length and the ranges, before a body. -/
theorem learns_lines {L off status : Int} {lines chunks : List Bytes}
    (htells : ∀ line ∈ lines, Tells L off status line) {l : Learnt} (hoff : l.off = off)
    (hstatus : l.status = status) (hsound : l.Sound L)
    (hlen : l.len = L ∨ ∃ line ∈ lines, textOf status line ≠ none)
    (hrange : l.range = .yes ∨ ∃ line ∈ lines, decisionOf off status line ≠ none) :
    Learns L l (lines.map .header ++ chunks.map .chunk) := by
  induction lines generalizing l with
  | nil =>
      have hwhole : l.Whole L := ⟨hlen.resolve_right (by simp), hrange.resolve_right (by simp)⟩
      refine hwhole.learns fun e he => ?_
      obtain ⟨b, -, rfl⟩ := List.mem_map.mp he
      exact ⟨b, rfl⟩
  | cons line lines ih =>
      have htell := htells line List.mem_cons_self
      have hhear : l.hear line = { l with
          len := if l.len < 0 then
              ((textOf l.status line).map fun text => toOffT (strtoull text)).getD l.len
            else l.len
          range := if l.range = .unknown then (decisionOf l.off l.status line).getD l.range
            else l.range } := by
        rw [Learnt.hear, htell.field]
      have hlen' : (l.hear line).len = L
          ∨ ((l.hear line).len = l.len ∧ textOf status line = none) := by
        rw [hhear, hstatus]
        dsimp only
        cases htext : textOf status line with
        | none => exact .inr ⟨by simp, rfl⟩
        | some text =>
            refine .inl ?_
            rw [Option.map_some, Option.getD_some, htell.length text htext]
            split
            · rfl
            · next hknown => exact hsound.1.resolve_left fun h => by omega
      have hrange' : (l.hear line).range = .yes
          ∨ ((l.hear line).range = l.range ∧ decisionOf off status line = none) := by
        rw [hhear, hstatus, hoff]
        dsimp only
        cases hdecision : decisionOf off status line with
        | none => exact .inr ⟨by simp, rfl⟩
        | some range =>
            refine .inl ?_
            rw [Option.getD_some, htell.range range hdecision]
            split
            · rfl
            · next hknown => exact hsound.2.resolve_left hknown
      have hsound' : (l.hear line).Sound L := by
        constructor
        · rcases hlen' with h | ⟨h, -⟩
          · exact .inr h
          · rw [h]; exact hsound.1
        · rcases hrange' with h | ⟨h, -⟩
          · exact .inr h
          · rw [h]; exact hsound.2
      refine ⟨hsound, hsound', .inr (ih (fun line' h => htells line' (List.mem_cons_of_mem _ h))
        ((l.hear_off line).trans hoff) ?_ hsound' ?_ ?_)⟩
      · rw [hhear]
        exact hstatus
      · rcases hlen' with h | ⟨h, hnone⟩
        · exact .inl h
        · rw [h]
          exact or_exists_of_cons hlen (not_not.mpr hnone)
      · rcases hrange' with h | ⟨h, hnone⟩
        · exact .inl h
        · rw [h]
          exact or_exists_of_cons hrange (not_not.mpr hnone)

/-! ## The answers of the server -/

theorem unsatisfiable_responseLine {status : Nat} (hint : status < 2 ^ 31) (reason : Bytes) :
    unsatisfiable (responseLine status reason) = true ↔ status = 416 := by
  have hstatus := statusOf_responseLine hint reason
  constructor
  · intro h
    rw [statusOf_unsatisfiable h] at hstatus
    have heq := Option.some.inj hstatus
    omega
  · rintro rfl
    have hne : (memtrim (responseLine 416 reason)).1 ≠ [] := fun hnil => by
      have happend : (memtrim (responseLine 416 reason)).1 ++ (memtrim (responseLine 416 reason)).2
          = responseLine 416 reason := memtrim_append _ (by decide)
      rw [hnil, List.nil_append] at happend
      have hspaces := memtrim_spaces (responseLine 416 reason)
      rw [happend] at hspaces
      exact absurd (hspaces 72 List.mem_cons_self) (by decide)
    rw [statusOf] at hstatus
    rw [unsatisfiable, hstatus, Bool.and_eq_true, Bool.not_eq_true', List.isEmpty_eq_false_iff]
    exact ⟨hne, rfl⟩

/-- The body that comes behind header lines. -/
theorem body_lines {lines : List Bytes} (h : ∀ line ∈ lines, statusOf line = none)
    (events : List CurlEvent) : body (lines.map .header ++ events) = body events := by
  induction lines with
  | nil => rfl
  | cons line lines ih =>
      have hsat : unsatisfiable line = false := Bool.eq_false_iff.mpr fun hu => by
        have hstatus := statusOf_unsatisfiable hu
        rw [h line List.mem_cons_self] at hstatus
        cases hstatus
      rw [List.map_cons, List.cons_append, body, hsat]
      exact ih fun l hl => h l (List.mem_cons_of_mem _ hl)

/-- A response, from `off` on, to a stream of which the content from there
on is `B` and the length `L`. -/
structure Carries (L : Int) (off : Int) (B : Bytes) (events : List CurlEvent) : Prop where
  body : body events = B
  learns : ∀ l : Learnt, l.off = off → l.Sound L → Learns L l events

/-- A response with a body, from lines that tell the length and ranges. -/
theorem Sent.carries {r : Response} {events : List CurlEvent} (h : Sent r events) {L off : Int}
    (hint : r.status < 2 ^ 31) (hstatus : r.status ≠ 416)
    (hasked : off = 0 ∨ (r.status : Int) ≠ 200)
    (htells : ∀ line ∈ r.lines, Tells L off r.status line)
    (hlen : ∃ line ∈ r.lines, textOf r.status line ≠ none)
    (hrange : ∃ line ∈ r.lines, decisionOf off r.status line ≠ none) :
    Carries L off r.body events := by
  obtain ⟨reason, lines, others, chunks, hperm, hothers, hbody, rfl⟩ := h
  have hall : ∀ line ∈ lines, Tells L off r.status line := by
    intro line hline
    rcases List.mem_append.mp (hperm.mem_iff.mp hline) with hline | hline
    · exact htells line hline
    · exact (hothers line hline).tells L hasked
  have hmem : ∀ line ∈ r.lines, line ∈ lines := fun line hline =>
    hperm.mem_iff.mpr (List.mem_append_left _ hline)
  have hsat : ¬ unsatisfiable (responseLine r.status reason) = true := fun hu =>
    hstatus ((unsatisfiable_responseLine hint _).mp hu)
  constructor
  · rw [body, if_neg hsat, body_lines fun line hline => (hall line hline).field, body_chunks, hbody]
  · intro l hoff hsound
    have hhear : l.hear (responseLine r.status reason) = { l with status := (r.status : Int) } := by
      rw [Learnt.hear, statusOf_responseLine hint]
    refine ⟨hsound, by rw [hhear]; exact hsound, .inr ?_⟩
    rw [hhear]
    obtain ⟨line, hline, htext⟩ := hlen
    obtain ⟨line', hline', hdecision⟩ := hrange
    exact learns_lines hall hoff rfl hsound (.inr ⟨line, hmem line hline, htext⟩)
      (.inr ⟨line', hmem line' hline', hdecision⟩)

/-- A 416 response carries nothing. -/
theorem Sent.carries_none {r : Response} {events : List CurlEvent} (h : Sent r events)
    (hstatus : r.status = 416) (L off : Int) : Carries L off [] events := by
  obtain ⟨reason, lines, others, chunks, -, -, -, rfl⟩ := h
  have hint : r.status < 2 ^ 31 := by rw [hstatus]; decide
  have hsat := (unsatisfiable_responseLine hint reason).mpr hstatus
  constructor
  · rw [body, if_pos hsat]
  · intro l _ hsound
    have hhear : l.hear (responseLine r.status reason) = { l with status := (r.status : Int) } := by
      rw [Learnt.hear, statusOf_responseLine hint]
    exact ⟨hsound, by rw [hhear]; exact hsound, .inl hsat⟩

/-- The content of the server. -/
def TestServer.bytes (server : TestServer) : Bytes := server.content.read 0 server.contentLen

theorem TestServer.length_bytes (server : TestServer) : server.bytes.length = server.contentLen :=
  ByteMem.length_read _ _ _

theorem TestServer.drop_bytes (server : TestServer) (off : Nat) :
    server.bytes.drop off = server.content.read off (server.contentLen - off) := by
  by_cases hoff : off ≤ server.contentLen
  · obtain ⟨k, hk⟩ := Nat.exists_eq_add_of_le hoff
    rw [TestServer.bytes, hk, ByteMem.read_add, List.drop_left' (ByteMem.length_read _ _ _),
      Nat.add_sub_cancel_left, Nat.zero_add]
  · rw [List.drop_eq_nil_of_le (by rw [server.length_bytes]; omega),
      Nat.sub_eq_zero_of_le (by omega), ByteMem.read_zero]

section Server

variable {server : TestServer} {events : List CurlEvent}

/-- The answer to a request without a range. -/
theorem answered_none (hlen : server.contentLen < 2 ^ 63) (h : Answered server none events) :
    Carries server.contentLen 0 server.bytes events := by
  obtain ⟨request, r, hasks, hr, hsent⟩ := h
  rw [handler_whole hasks] at hr
  obtain rfl := Option.some.inj hr
  have hlines : server.whole.lines
      = [fieldLine (actRng, bytesUnit), fieldLine (cntLen, digits server.contentLen)] := by
    rw [Response.lines, TestServer.whole, ByteMem.length_read]
    rfl
  obtain ⟨hlength, htext⟩ := tells_length (L := server.contentLen) server.contentLen 0 200
    (fun _ => ⟨rfl, rfl⟩) hlen
  obtain ⟨hranges, hyes⟩ := tells_acceptRanges (L := server.contentLen)
  have hstatus : server.whole.status ≠ 416 := by
    show 200 ≠ 416
    decide
  have hint : server.whole.status < 2 ^ 31 := by
    show 200 < 2 ^ 31
    decide
  refine hsent.carries hint hstatus (.inl rfl) ?_ ?_ ?_
  · rw [hlines]
    intro line hline
    rcases List.mem_cons.mp hline with rfl | hline
    · exact hranges
    · obtain rfl := List.mem_singleton.mp hline
      exact hlength
  · exact ⟨_, by rw [hlines]; exact List.mem_cons_of_mem _ List.mem_cons_self, htext rfl⟩
  · exact ⟨_, by rw [hlines]; exact List.mem_cons_self, hyes⟩

/-- The answer to the request of a seek. -/
theorem answered_seek (hlen : server.contentLen < 2 ^ 63) {offset : Nat} (hoff : offset < 2 ^ 63)
    (h : Answered server (some (toString (offset : Int) ++ "-")) events) :
    Carries server.contentLen offset (server.bytes.drop offset) events := by
  obtain ⟨request, r, hasks, hr, hsent⟩ := h
  have hvalue : lit "bytes=" ++ lit (toString (offset : Int) ++ "-") = rangeValue offset [] := by
    rw [lit_append]
    rfl
  rw [Asks, hvalue] at hasks
  rw [handler_open (by omega) hasks] at hr
  obtain rfl := Option.some.inj hr
  rw [server.drop_bytes]
  by_cases hin : offset < server.contentLen
  · have hend : sizeSub server.contentLen 1 = server.contentLen - 1 := if_pos (by omega)
    have hpart : server.part offset (sizeSub server.contentLen 1)
        = ⟨206, [(cntRng, contentRange offset (server.contentLen - 1) server.contentLen)],
            server.content.read offset (server.contentLen - offset)⟩ := by
      rw [hend, TestServer.part, if_pos ⟨by omega, hin⟩,
        show server.contentLen - 1 - offset + 1 = server.contentLen - offset by omega]
    rw [hpart] at hsent
    obtain ⟨hrange, htext, hyes⟩ := tells_contentRange (L := server.contentLen) offset
      (server.contentLen - 1) (by omega) (by omega) hlen (offset : Int)
    refine hsent.carries (by show 206 < 2 ^ 31; decide) (by show 206 ≠ 416; decide)
      (.inr (by show (206 : Int) ≠ 200; decide)) ?_ ?_ ?_
    · intro line hline
      rcases List.mem_cons.mp hline with rfl | hline
      · exact hrange
      · obtain rfl := List.mem_singleton.mp hline
        exact (tells_length (L := server.contentLen) _ _ _ (fun h => by cases h) hlen).1
    · exact ⟨_, List.mem_cons_self, htext⟩
    · exact ⟨_, List.mem_cons_self, hyes⟩
  · have hpart : server.part offset (sizeSub server.contentLen 1) = internalError 416 :=
      if_neg fun h => hin h.2
    rw [hpart] at hsent
    rw [Nat.sub_eq_zero_of_le (by omega), ByteMem.read_zero]
    exact hsent.carries_none rfl _ _

end Server

end Streamlike
