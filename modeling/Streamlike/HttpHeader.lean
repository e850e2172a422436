import Streamlike.CString
import Streamlike.Ring

/-!
# The HTTP stream: its context and the header callback

`struct sl_http_s` of `http.c`, and `sl_http_header_cb_`, which learns the
status, the length of the resource and whether ranges are allowed from the
header lines of a response, one line a call.
-/

namespace Streamlike

open CString

/-! ## The context -/

inductive RangeAllowed where
  | unknown
  | yes
  | no
deriving Repr, DecidableEq

inductive HttpState where
  | ready
  | working
  | paused
  | abortRequested
  | aborted
deriving Repr, DecidableEq

/-- What libcurl hands to the callbacks. -/
inductive CurlEvent where
  | header (line : Bytes)
  | chunk (b : Bytes)
deriving Repr, DecidableEq

/-- The easy handle and the multi handle it is on: the range option, what
the transfer has still to deliver, and whether it is paused. The history
variable `presented` lists `curlbuf_off` and the size of the chunk at each
call of the write callback. -/
structure Curl where
  range : Option String
  events : List CurlEvent
  paused : Bool
  presented : List (Nat × Nat)

/-- `struct sl_http_s`. -/
structure SlHttp where
  httpOff : Int
  httpLen : Int
  httpStatus : Int
  httpRangeAllowed : RangeAllowed
  curl : Curl
  curlbufOff : Nat
  outbufOff : Nat
  outbufSize : Nat
  outbuf : ByteMem UInt8
  state : HttpState

/-! ## Lines -/

/-- `memtrim`: the bytes from `*begin` to `*end`, and those from `*end` to
the end of the region. It returns nonzero when the first are none. -/
def memtrim (mem : Bytes) : Bytes × Bytes :=
  ((mem.rdropWhile isspace).dropWhile isspace, mem.rtakeWhile isspace)

def memcasestartswith (s1 s2 : Bytes) : Bool := decide (s2.length ≤ s1.length) && caseEq s1 s2

/-- `Content-Length`. -/
def cntLen : Bytes := [67, 111, 110, 116, 101, 110, 116, 45, 76, 101, 110, 103, 116, 104]

/-- `Content-Range`. -/
def cntRng : Bytes := [67, 111, 110, 116, 101, 110, 116, 45, 82, 97, 110, 103, 101]

/-- `Accept-Ranges`. -/
def actRng : Bytes := [65, 99, 99, 101, 112, 116, 45, 82, 97, 110, 103, 101, 115]

/-- `bytes`. -/
def bytesUnit : Bytes := [98, 121, 116, 101, 115]

/-- `HTTP/`. -/
def httpLit : Bytes := [72, 84, 84, 80, 47]

/-- `sscanf(line, "HTTP/%*3s %d ", &status) == 1`. -/
def scanStatus (line : Bytes) : Option Int := do
  let s ← scanLit httpLit (cstr line)
  let s ← scanWord 3 s
  let (status, _) ← scanInt (scanSpace s)
  return status

inductive HeaderType where
  | contentLength
  | contentRange
  | acceptRanges
  | other
deriving Repr, DecidableEq

/-- The type of a header line with this key. -/
def headerType (key : Bytes) : HeaderType :=
  if memcasestartswith key cntRng then .contentRange
  else if memcasestartswith key cntLen then .contentLength
  else if memcasestartswith key actRng then .acceptRanges
  else .other

/-! ## The header callback -/

/-- Set `http_range_allowed` if range support isn't known. -/
def learnRange (http : SlHttp) (type : HeaderType) (value : Bytes) : SlHttp :=
  if http.httpRangeAllowed = .unknown then
    if type = .contentRange then { http with httpRangeAllowed := .yes }
    else if http.httpOff ≠ 0 ∧ http.httpStatus = 200 then { http with httpRangeAllowed := .no }
    else if type = .acceptRanges then
      if memcasestartswith value bytesUnit then { http with httpRangeAllowed := .yes }
      else { http with httpRangeAllowed := .no }
    else http
  else http

/-- Set `http_len` if it isn't known. `value` runs to the end of the line,
`after` from there to the end of the buffer. -/
def learnLength (http : SlHttp) (type : HeaderType) (value after : Bytes) : SlHttp :=
  if http.httpLen < 0 then
    if http.httpStatus = 206 ∧ type = .contentRange then
      match value.dropWhile (· != 47) with
      -- no length divider, or nothing behind it
      | [] | [_] => http
      | _ :: length_part => { http with httpLen := toOffT (strtoull (length_part ++ after)) }
    else if http.httpStatus = 200 ∧ type = .contentLength then
      { http with httpLen := toOffT (strtoull (value ++ after)) }
    else http
  else http

/-- A line that is not a status line. -/
def headerField (http : SlHttp) (line after : Bytes) : SlHttp :=
  let key := line.takeWhile (· != 58)
  match line.dropWhile (· != 58) with
  -- no colon, or nothing behind it
  | [] | [_] => http
  | _ :: rest =>
      if key.isEmpty then http
      else
        let (value, blank) := memtrim rest
        if value.isEmpty then http
        else
          let value := value ++ blank
          let type := headerType key
          learnLength (learnRange http type value) type value after

/-- `sl_http_header_cb_`, for a line of `curlbuf.length` bytes. -/
def slHttpHeaderCb_ (http : SlHttp) (curlbuf : Bytes) : Nat × SlHttp :=
  if curlbuf.length = 0 then (0, http)
  else
    let (line, after) := memtrim curlbuf
    if line.isEmpty then (curlbuf.length, http)
    else
      match scanStatus (line ++ after) with
      | some status =>
          let http := { http with httpStatus := status }
          -- range not satisfiable
          if http.httpStatus = 416 then (0, http) else (curlbuf.length, http)
      | none => (curlbuf.length, headerField http line after)

/-! ## The answers -/

/-- `sl_seekable_t`. -/
inductive Seekable where
  | notSupported
  | supported
  | emulated
  | checkpoints
deriving Repr, DecidableEq

def slHttpEofCb (http : SlHttp) : Bool := http.httpOff ≥ http.httpLen && http.httpLen ≥ 0

def slHttpErrorCb (_ : SlHttp) : Int := 0

def slHttpLengthCb (http : SlHttp) : Int := http.httpLen

def slHttpSeekableCb (http : SlHttp) : Seekable :=
  match http.httpRangeAllowed with
  | .yes => .supported
  | _ => .notSupported

/-- The line is a status line with 416. -/
def unsatisfiable (curlbuf : Bytes) : Bool :=
  !(memtrim curlbuf).1.isEmpty
    && scanStatus ((memtrim curlbuf).1 ++ (memtrim curlbuf).2) == some 416

/-! ## What it returns and what it leaves -/

/-- Only a 416 status line is not taken in full. -/
theorem headerCb_ret (http : SlHttp) (curlbuf : Bytes) :
    (slHttpHeaderCb_ http curlbuf).1 = curlbuf.length ↔ unsatisfiable curlbuf = false := by
  cases curlbuf with
  | nil => exact iff_of_true rfl rfl
  | cons b curlbuf =>
      have hlen : (b :: curlbuf).length ≠ 0 := Nat.succ_ne_zero _
      rw [slHttpHeaderCb_, if_neg hlen, unsatisfiable]
      generalize memtrim (b :: curlbuf) = trimmed
      obtain ⟨line, after⟩ := trimmed
      cases line with
      | nil => simp
      | cons c line =>
          cases hscan : scanStatus (c :: (line ++ after)) with
          | none => simp [hscan]
          | some status => by_cases hstatus : status = 416 <;> simp [hscan, hstatus]

/-- The callback sets these three fields and no other. -/
def SlHttp.LearntFrom (http http' : SlHttp) : Prop :=
  ∃ len status range,
    http' = { http with httpLen := len, httpStatus := status, httpRangeAllowed := range }

theorem learnRange_frame (http : SlHttp) (type : HeaderType) (value : Bytes) :
    ∃ range, learnRange http type value = { http with httpRangeAllowed := range } := by
  unfold learnRange
  split_ifs <;> exact ⟨_, rfl⟩

theorem learnLength_frame (http : SlHttp) (type : HeaderType) (value after : Bytes) :
    ∃ len, learnLength http type value after = { http with httpLen := len } := by
  unfold learnLength
  split_ifs
  · split <;> exact ⟨_, rfl⟩
  all_goals exact ⟨_, rfl⟩

theorem headerField_frame (http : SlHttp) (line after : Bytes) :
    http.LearntFrom (headerField http line after) := by
  unfold headerField
  split
  · exact ⟨_, _, _, rfl⟩
  · exact ⟨_, _, _, rfl⟩
  · next colon rest _ _ =>
    dsimp only
    split_ifs
    · exact ⟨_, _, _, rfl⟩
    · exact ⟨_, _, _, rfl⟩
    · obtain ⟨range, hrange⟩ := learnRange_frame http
        (headerType (line.takeWhile (· != 58))) ((memtrim rest).1 ++ (memtrim rest).2)
      obtain ⟨len, hlen⟩ := learnLength_frame { http with httpRangeAllowed := range }
        (headerType (line.takeWhile (· != 58))) ((memtrim rest).1 ++ (memtrim rest).2) after
      exact ⟨len, _, range, by rw [hrange, hlen]⟩

theorem headerCb_frame (http : SlHttp) (curlbuf : Bytes) :
    http.LearntFrom (slHttpHeaderCb_ http curlbuf).2 := by
  unfold slHttpHeaderCb_
  split_ifs
  · exact ⟨_, _, _, rfl⟩
  · generalize memtrim curlbuf = trimmed
    obtain ⟨line, after⟩ := trimmed
    dsimp only
    split_ifs
    · exact ⟨_, _, _, rfl⟩
    · split
      · split_ifs <;> exact ⟨_, _, _, rfl⟩
      · exact headerField_frame http line after

end Streamlike
