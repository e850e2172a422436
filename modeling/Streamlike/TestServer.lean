import Streamlike.CFormat
import Streamlike.Http
import Streamlike.HttpLength

/-!
# The test server

`test_server.c` of the tests: `test_server_get_range`, which reads the
`Range` header of a request, and `test_server_handler`, which answers with
the content, a part of it or an error. Both ends of the range are numbers
that the request gives, and the response is cut out of the content by them.
The last position is compared with the length by `>`, so the response can
run one byte over the content (`ranges_inside_iff`).

The request that `sl_http_seek_cb` has libcurl make names the offset in
decimal, and the server takes that offset from it again (`handler_open`).

The daemon is not part of the repository: of it the model has the order in
which it goes through the headers of a request.
-/

namespace Streamlike

open CString CFormat

/-! ## Requests -/

/-- `test_server_t`, as far as a request is answered from it. -/
structure TestServer where
  content : ByteMem UInt8
  contentLen : Nat

/-- The `status` of a request's context. -/
inductive CtxStatus where
  | normal
  | partialRange
  | badHeaders
  | rangeNotSatisfied
  | notSupported
deriving Repr, DecidableEq

/-- `test_server_ctx_t`. -/
structure TestServerCtx where
  status : CtxStatus
  rangeStart : Nat
  rangeEnd : Nat
deriving Repr, DecidableEq

/-- `value[offset]`, for a string of these bytes; `none` behind its NUL. -/
def charAt (value : Bytes) (offset : Nat) : Option UInt8 := (value ++ [0])[offset]?

/-- The end of the range, behind the dash at which `value` starts. -/
def rangeEndOf (server : TestServer) (value : Bytes) (ctx : TestServerCtx) :
    Option TestServerCtx :=
  match scanSize value with
  | none => some { ctx with status := .badHeaders }
  | some (range_end, rest) =>
      let ctx := { ctx with rangeEnd := range_end }
      (charAt value (value.length - rest.length)).map fun c =>
        if c = 44 then { ctx with status := .notSupported }
        else if c = 0 then
          { ctx with
            status := .partialRange
            rangeEnd :=
              if ctx.rangeEnd > server.contentLen then sizeSub server.contentLen 1
              else ctx.rangeEnd }
        else { ctx with status := .badHeaders }

/-- The value of the header, up to the comparisons at the end. -/
def rangeOf (server : TestServer) (value : Bytes) (ctx : TestServerCtx) : Option TestServerCtx :=
  match scanLit (lit "bytes=") value with
  | none => some { ctx with status := .badHeaders }
  | some value =>
      match scanSize value with
      | none => some { ctx with status := .badHeaders }
      | some (range_start, rest) =>
          let ctx := { ctx with rangeStart := range_start }
          -- without a dash the offset is still the one behind "bytes="
          let offset := match scanLit (lit "-") rest with
            | some rest => value.length - rest.length
            | none => 6
          (charAt value offset).bind fun c =>
            if c = 0 then
              some { ctx with
                status := .partialRange, rangeEnd := sizeSub server.contentLen 1 }
            else if c = 44 then some { ctx with status := .notSupported }
            else rangeEndOf server (value.drop offset) ctx

/-- `test_server_get_range`: whether the daemon is to go on with the next
header, and the context; `none` when it reads behind the value. -/
def testServerGetRange (server : TestServer) (key value : Bytes) (ctx : TestServerCtx) :
    Option (Bool × TestServerCtx) :=
  if sameName key (lit "range") then
    (rangeOf server value ctx).map fun ctx =>
      (false,
        if ctx.rangeStart > ctx.rangeEnd || ctx.rangeStart ≥ server.contentLen then
          { ctx with status := .rangeNotSatisfied }
        else ctx)
  else some (true, ctx)

/-- `MHD_get_connection_values`. -/
def getConnectionValues (server : TestServer) :
    List (Bytes × Bytes) → TestServerCtx → Option TestServerCtx
  | [], ctx => some ctx
  | (key, value) :: request, ctx =>
      (testServerGetRange server key value ctx).bind fun (next, ctx) =>
        if next then getConnectionValues server request ctx else some ctx

/-! ## Responses -/

/-- A response: its status, the headers added to it, its body. -/
structure Response where
  status : Nat
  fields : List (Bytes × Bytes)
  body : Bytes

def internalError (status : Nat) : Response := ⟨status, [], lit "Error."⟩

/-- `buf` after `snprintf(buf, 128, "bytes %zu-%zu/%zu", ..)`. -/
def contentRange (range_start range_end content_len : Nat) : Bytes :=
  cstr ((snprintf (fun _ => 0) 0 128 ⟨lit "bytes " ++ digits range_start ++ lit "-"
    ++ digits range_end ++ lit "/" ++ digits content_len, false⟩).1.read 0 128)

/-- `test_server_handler`. `added` is whether `MHD_add_response_header`
succeeds; `none` when the range is read from behind its header. -/
def testServerHandler (server : TestServer) (added : Bool) (request : List (Bytes × Bytes)) :
    Option Response :=
  (getConnectionValues server request ⟨.normal, 0, 0⟩).map fun ctx =>
    match ctx.status with
    | .normal =>
        if added then
          ⟨200, [(actRng, bytesUnit)], server.content.read 0 server.contentLen⟩
        else internalError 500
    | .partialRange =>
        let range_len := ctx.rangeEnd - ctx.rangeStart + 1
        if added then
          ⟨206, [(cntRng, contentRange ctx.rangeStart ctx.rangeEnd server.contentLen)],
            server.content.read ctx.rangeStart range_len⟩
        else internalError 500
    | .rangeNotSatisfied => internalError 416
    | .badHeaders => internalError 400
    | .notSupported => internalError 501

/-- The text fits the buffer. -/
theorem contentRange_eq {range_start range_end content_len : Nat} (hstart : range_start < 2 ^ 64)
    (hend : range_end < 2 ^ 64) (hlen : content_len < 2 ^ 64) :
    contentRange range_start range_end content_len
      = lit "bytes " ++ digits range_start ++ lit "-" ++ digits range_end ++ lit "/"
          ++ digits content_len := by
  have hdigits : ∀ n < 2 ^ 64, (digits n).length ≤ 20 ∧ 0 ∉ digits n := fun n hn =>
    ⟨length_digits_le (by decide) (hn.trans (by decide)), fun hnul =>
      absurd (isdigit_digits n 0 hnul) (by decide)⟩
  obtain ⟨hstart, hstart'⟩ := hdigits _ hstart
  obtain ⟨hend, hend'⟩ := hdigits _ hend
  obtain ⟨hlen, hlen'⟩ := hdigits _ hlen
  rw [contentRange]
  generalize htext : lit "bytes " ++ digits range_start ++ lit "-" ++ digits range_end ++ lit "/"
    ++ digits content_len = text
  have hlits : (lit "bytes ").length = 6 ∧ (lit "-").length = 1 ∧ (lit "/").length = 1
      ∧ 0 ∉ lit "bytes " ∧ 0 ∉ lit "-" ∧ 0 ∉ lit "/" := by decide
  obtain ⟨hbytes, hdash, hslash, hbytes', hdash', hslash'⟩ := hlits
  have hfits : text.length ≤ 127 := by
    rw [← htext]
    simp only [List.length_append]
    omega
  have hnul : 0 ∉ text := by
    rw [← htext]
    simp only [List.mem_append, not_or]
    exact ⟨⟨⟨⟨⟨hbytes', hstart'⟩, hdash'⟩, hend'⟩, hslash'⟩, hlen'⟩
  have hread := snprintf_read (fun _ => 0) 0 127 ⟨text, false⟩
  rw [List.take_of_length_le hfits] at hread
  rw [cstr_read hread (by omega), cstr_eq_self_iff.mpr hnul]

/-! ## Reading the range -/

theorem scanLit_append (l rest : Bytes) : scanLit l (l ++ rest) = some rest := by
  induction l with
  | nil => rfl
  | cons c l ih => simpa [scanLit] using ih

theorem charAt_length (value : Bytes) : charAt value value.length = some 0 := by
  simp [charAt]

/-- `bytes=<start>-`, and what comes behind the dash. -/
def rangeValue (start : Nat) (rest : Bytes) : Bytes :=
  lit "bytes=" ++ (digits start ++ (lit "-" ++ rest))

section Range

variable {server : TestServer} {start : Nat} {ctx : TestServerCtx}

/-- The value of a header `bytes=<start>-..`. -/
theorem rangeOf_value (hstart : start < 2 ^ 64) (rest : Bytes) :
    rangeOf server (rangeValue start rest) ctx
      = match rest with
        | [] => some ⟨.partialRange, start, sizeSub server.contentLen 1⟩
        | c :: rest =>
            if c = 0 then some ⟨.partialRange, start, sizeSub server.contentLen 1⟩
            else if c = 44 then some ⟨.notSupported, start, ctx.rangeEnd⟩
            else rangeEndOf server (c :: rest) ⟨ctx.status, start, ctx.rangeEnd⟩ := by
  have hscan : scanSize (digits start ++ (lit "-" ++ rest)) = some (start, lit "-" ++ rest) := by
    rw [scanSize_digits (digits_ne_nil start) (isdigit_digits start) rfl
      (by rw [decimal_digits]; exact hstart), decimal_digits]
  have hoff : (digits start ++ (lit "-" ++ rest)).length - rest.length
      = (digits start ++ lit "-").length := by
    simp only [List.length_append]
    omega
  have hsplit : digits start ++ (lit "-" ++ rest) = (digits start ++ lit "-") ++ rest :=
    (List.append_assoc _ _ _).symm
  rw [rangeOf, rangeValue, scanLit_append]
  dsimp only
  rw [hscan]
  dsimp only
  rw [scanLit_append]
  dsimp only
  rw [hoff, hsplit, List.drop_left]
  cases rest with
  | nil => simp [charAt]
  | cons c rest => simp [charAt]

/-- The end of the range of a header `bytes=<start>-<last>`. -/
theorem rangeEndOf_digits {last : Nat} (hlast : last < 2 ^ 64) :
    rangeEndOf server (digits last) ctx
      = some { ctx with
          status := .partialRange
          rangeEnd := if last > server.contentLen then sizeSub server.contentLen 1 else last } := by
  have hscan : scanSize (digits last) = some (last, []) := by
    have hrest : ([] : Bytes).takeWhile isdigit = [] := rfl
    have h := scanSize_digits (digits_ne_nil last) (isdigit_digits last) hrest
      (by rw [decimal_digits]; exact hlast)
    rwa [List.append_nil, decimal_digits] at h
  rw [rangeEndOf, hscan]
  simp [charAt_length]

end Range

/-! ## Answering -/

/-- The first header of the request named `Range` has this value. -/
def HasRange (request : List (Bytes × Bytes)) (value : Bytes) : Prop :=
  ∃ pre key post, request = pre ++ (key, value) :: post
    ∧ sameName key (lit "range") = true ∧ ∀ field ∈ pre, sameName field.1 (lit "range") = false

theorem getConnectionValues_hasRange {server : TestServer} {request : List (Bytes × Bytes)}
    {value : Bytes} (h : HasRange request value) (ctx : TestServerCtx) :
    getConnectionValues server request ctx
      = (testServerGetRange server (lit "range") value ctx).map (·.2) := by
  obtain ⟨pre, key, post, rfl, hkey, hpre⟩ := h
  have hrange : sameName (lit "range") (lit "range") = true := beq_self_eq_true _
  induction pre with
  | nil =>
      rw [List.nil_append, getConnectionValues, testServerGetRange, if_pos hkey,
        testServerGetRange, if_pos hrange]
      cases rangeOf server value ctx <;> rfl
  | cons field pre ih =>
      obtain ⟨key', value'⟩ := field
      have hother : sameName key' (lit "range") = false := hpre _ List.mem_cons_self
      rw [List.cons_append, getConnectionValues, testServerGetRange,
        if_neg (by rw [hother]; exact Bool.false_ne_true), Option.bind_some]
      exact ih fun f hf => hpre f (List.mem_cons_of_mem _ hf)

/-- Without a `Range` the whole content is the answer. -/
theorem getConnectionValues_none {server : TestServer} {request : List (Bytes × Bytes)}
    (h : ∀ field ∈ request, sameName field.1 (lit "range") = false) (ctx : TestServerCtx) :
    getConnectionValues server request ctx = some ctx := by
  induction request with
  | nil => rfl
  | cons field request ih =>
      obtain ⟨key, value⟩ := field
      have hother : sameName key (lit "range") = false := h _ List.mem_cons_self
      rw [getConnectionValues, testServerGetRange,
        if_neg (by rw [hother]; exact Bool.false_ne_true), Option.bind_some]
      exact ih fun f hf => h f (List.mem_cons_of_mem _ hf)

/-- The answer to a request without a range. -/
def TestServer.whole (server : TestServer) : Response :=
  ⟨200, [(actRng, bytesUnit)], server.content.read 0 server.contentLen⟩

theorem handler_whole {server : TestServer} {request : List (Bytes × Bytes)}
    (h : ∀ field ∈ request, sameName field.1 (lit "range") = false) :
    testServerHandler server true request = some server.whole := by
  rw [testServerHandler, getConnectionValues_none h]
  rfl

/-- The answer to a request for the content from `start` to `last`. -/
def TestServer.part (server : TestServer) (start last : Nat) : Response :=
  if start ≤ last ∧ start < server.contentLen then
    ⟨206, [(cntRng, contentRange start last server.contentLen)],
      server.content.read start (last - start + 1)⟩
  else internalError 416

theorem handler_part {server : TestServer} {request : List (Bytes × Bytes)} {value : Bytes}
    {start last : Nat} (h : HasRange request value)
    (hrange : rangeOf server value ⟨.normal, 0, 0⟩ = some ⟨.partialRange, start, last⟩) :
    testServerHandler server true request = some (server.part start last) := by
  have hname : sameName (lit "range") (lit "range") = true := beq_self_eq_true _
  rw [testServerHandler, getConnectionValues_hasRange h, testServerGetRange, if_pos hname, hrange]
  simp only [Option.map_some, TestServer.part]
  by_cases hin : start ≤ last ∧ start < server.contentLen
  · rw [if_pos hin, if_neg (by simp; omega)]
    rfl
  · rw [if_neg hin, if_pos (by simp; omega)]

/-- The request of `sl_http_seek_cb`, `bytes=<offset>-`. -/
theorem handler_open {server : TestServer} {request : List (Bytes × Bytes)} {offset : Nat}
    (hoff : offset < 2 ^ 64) (h : HasRange request (rangeValue offset [])) :
    testServerHandler server true request
      = some (server.part offset (sizeSub server.contentLen 1)) :=
  handler_part h (rangeOf_value hoff [])

/-- The request `bytes=<start>-<last>`. -/
theorem handler_closed {server : TestServer} {request : List (Bytes × Bytes)} {start last : Nat}
    (hstart : start < 2 ^ 64) (hlast : last < 2 ^ 64)
    (h : HasRange request (rangeValue start (digits last))) :
    testServerHandler server true request
      = some (server.part start
          (if last > server.contentLen then sizeSub server.contentLen 1 else last)) := by
  refine handler_part h ?_
  rw [rangeOf_value hstart]
  cases hdigits : digits last with
  | nil => exact absurd hdigits (digits_ne_nil last)
  | cons c rest =>
      have hc : isdigit c = true :=
        isdigit_digits last c (by rw [hdigits]; exact List.mem_cons_self)
      dsimp only
      rw [if_neg (by rintro rfl; exact absurd hc (by decide)),
        if_neg (by rintro rfl; exact absurd hc (by decide)), ← hdigits, rangeEndOf_digits hlast]

/-! ## The end of the range -/

section End

variable {server : TestServer}

/-- The end of the range is the length at most, or the position before
it. -/
theorem rangeEndOf_le {value : Bytes} {ctx ctx' : TestServerCtx}
    (h : rangeEndOf server value ctx = some ctx') (hstatus : ctx'.status = .partialRange) :
    ctx'.rangeEnd ≤ server.contentLen ∨ ctx'.rangeEnd = sizeSub server.contentLen 1 := by
  unfold rangeEndOf at h
  split at h
  · obtain rfl := Option.some.inj h
    cases hstatus
  · dsimp only at h
    obtain ⟨c, -, heq⟩ := Option.map_eq_some_iff.mp h
    split_ifs at heq with hcomma hend hlast
    · subst heq
      cases hstatus
    · subst heq
      exact .inr rfl
    · subst heq
      exact .inl (not_lt.mp hlast)
    · subst heq
      cases hstatus

theorem rangeOf_le {value : Bytes} {ctx ctx' : TestServerCtx}
    (h : rangeOf server value ctx = some ctx') (hstatus : ctx'.status = .partialRange) :
    ctx'.rangeEnd ≤ server.contentLen ∨ ctx'.rangeEnd = sizeSub server.contentLen 1 := by
  unfold rangeOf at h
  split at h
  · obtain rfl := Option.some.inj h
    cases hstatus
  · split at h
    · obtain rfl := Option.some.inj h
      cases hstatus
    · dsimp only at h
      obtain ⟨c, -, h⟩ := Option.bind_eq_some_iff.mp h
      split_ifs at h
      · obtain rfl := Option.some.inj h
        exact .inr rfl
      · obtain rfl := Option.some.inj h
        cases hstatus
      · exact rangeEndOf_le h hstatus

/-- A range that is answered is one of the content, up to its end. -/
theorem getConnectionValues_le {request : List (Bytes × Bytes)} {ctx ctx' : TestServerCtx}
    (h : getConnectionValues server request ctx = some ctx')
    (hstatus : ctx'.status = .partialRange) (hne : ctx.status ≠ .partialRange) :
    ctx'.rangeStart ≤ ctx'.rangeEnd ∧ ctx'.rangeStart < server.contentLen
      ∧ ctx'.rangeEnd ≤ server.contentLen := by
  induction request with
  | nil =>
      obtain rfl := Option.some.inj h
      exact absurd hstatus hne
  | cons field request ih =>
      obtain ⟨key, value⟩ := field
      rw [getConnectionValues, testServerGetRange] at h
      split_ifs at h with hkey
      · obtain ⟨⟨next, ctx₂⟩, hget, hnext⟩ := Option.bind_eq_some_iff.mp h
        obtain ⟨ctx₁, hrange, heq⟩ := Option.map_eq_some_iff.mp hget
        obtain ⟨rfl, rfl⟩ := Prod.mk.inj heq
        have hctx := Option.some.inj hnext
        split_ifs at hctx with hout
        · subst hctx
          cases hstatus
        · subst hctx
          have hend := rangeOf_le hrange hstatus
          simp only [Bool.or_eq_true, decide_eq_true_eq, not_or, not_lt, ge_iff_le,
            not_le] at hout
          refine ⟨hout.1, hout.2, ?_⟩
          rcases hend with hend | hend
          · exact hend
          · rw [hend, sizeSub, if_pos (by omega)]
            exact Nat.sub_le _ _
      · exact ih h

end End

/-- **The server answers inside its content, or one byte over it.** Every
range it answers begins inside the content and ends at the length at the
latest. A request for `start` to `last` is answered from inside the content
exactly when `last` is not the length: further positions are cut to the
last one. -/
theorem ranges_inside_iff (server : TestServer) :
    (∀ added request r, testServerHandler server added request = some r → r.status = 206 →
        ∃ start last, r = server.part start last ∧ start ≤ last ∧ start < server.contentLen
          ∧ last ≤ server.contentLen)
      ∧ ∀ request start last, start < 2 ^ 64 → last < 2 ^ 64 → start ≤ last →
          start < server.contentLen → HasRange request (rangeValue start (digits last)) →
          ∃ r, testServerHandler server true request = some r ∧ r.status = 206
            ∧ (start + r.body.length ≤ server.contentLen ↔ last ≠ server.contentLen) := by
  constructor
  · intro added request r h h206
    obtain ⟨ctx, hget, hr⟩ := Option.map_eq_some_iff.mp h
    cases hstatus : ctx.status with
    | partialRange =>
        obtain ⟨hle, hlt, hend⟩ := getConnectionValues_le hget hstatus nofun
        rw [hstatus] at hr
        cases added with
        | true =>
            refine ⟨ctx.rangeStart, ctx.rangeEnd, ?_, hle, hlt, hend⟩
            rw [TestServer.part, if_pos ⟨hle, hlt⟩]
            exact hr.symm
        | false =>
            subst hr
            cases h206
    | normal =>
        rw [hstatus] at hr
        cases added <;> (subst hr; cases h206)
    | badHeaders | rangeNotSatisfied | notSupported =>
        rw [hstatus] at hr
        subst hr
        cases h206
  · intro request start last hstart hlast hle hlt h
    refine ⟨_, handler_closed hstart hlast h, ?_⟩
    split
    · next hover =>
      rw [sizeSub, if_pos (by omega), TestServer.part, if_pos ⟨by omega, hlt⟩]
      refine ⟨rfl, ?_⟩
      rw [ByteMem.length_read]
      omega
    · next hunder =>
      rw [TestServer.part, if_pos ⟨hle, hlt⟩]
      refine ⟨rfl, ?_⟩
      rw [ByteMem.length_read]
      omega

/-- Of a content of three bytes the range 1-3 is answered with three, and
1-4 with two. -/
theorem ranges_inside_iff_run :
    ∃ r r', testServerHandler ⟨fun _ => 7, 3⟩ true [(lit "Range", lit "bytes=1-3")] = some r
      ∧ testServerHandler ⟨fun _ => 7, 3⟩ true [(lit "Range", lit "bytes=1-4")] = some r'
      ∧ ¬ 1 + r.body.length ≤ 3 ∧ 1 + r'.body.length ≤ 3 := by
  have hfirst : ∀ value, HasRange [(lit "Range", value)] value := fun value =>
    ⟨[], _, [], rfl, by decide, nofun⟩
  obtain ⟨-, hclosed⟩ := ranges_inside_iff ⟨fun _ => 7, 3⟩
  obtain ⟨r, hr, -, hin⟩ := hclosed [(lit "Range", lit "bytes=1-3")] 1 3 (by decide) (by decide)
    (by decide) (by decide) (hfirst _)
  obtain ⟨r', hr', -, hin'⟩ := hclosed [(lit "Range", lit "bytes=1-4")] 1 4 (by decide) (by decide)
    (by decide) (by decide) (hfirst _)
  exact ⟨r, r', hr, hr', fun h => hin.mp h rfl, hin'.mpr (by decide)⟩

end Streamlike
