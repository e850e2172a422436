import Streamlike.Buffer
import Streamlike.HttpHeader

/-!
# The HTTP stream on libcurl

The rest of `http.c`: the write callback, the transfer that calls the two
callbacks, and `sl_http_read_cb` and `sl_http_seek_cb` that drive it.

libcurl is not part of the repository. Of it the model has what the code
relies on. A transfer delivers header lines and body chunks, any lines and
chunks in any order, and is over when none are left; a callback that does
not take all it is given ends it. After `CURL_WRITEFUNC_PAUSE` nothing is
delivered until `curl_easy_pause(CURLPAUSE_CONT)`, and then the same chunk
again. How many events one `curl_multi_perform` delivers, and how many
`curl_easy_pause` does, is left to the action, as is what the server
answers to a request. Inside a callback `curl_multi_remove_handle` and
`curl_multi_add_handle` are refused; outside they start a new transfer.
-/

namespace Streamlike

/-- The difference of two `size_t` of 64 bits. -/
def sizeSub (a b : Nat) : Nat := if b ≤ a then a - b else a + 2 ^ 64 - b

/-- `off += n` for an `off_t` and a `size_t`, of 64 bits both: the sum
wraps, and an offset to which nothing is added stays. -/
def offAdd (off : Int) (n : Nat) : Int := if n = 0 then off else (off + n).bmod (2 ^ 64)

example : offAdd (2 ^ 63 - 1) 3 = -2 ^ 63 + 2 := by decide

theorem offAdd_offAdd (off : Int) (m n : Nat) : offAdd (offAdd off m) n = offAdd off (m + n) := by
  unfold offAdd
  rcases Nat.eq_zero_or_pos n with rfl | hn
  · rw [if_pos rfl, Nat.add_zero]
  rcases Nat.eq_zero_or_pos m with rfl | hm
  · rw [if_pos rfl, Nat.zero_add]
  rw [if_neg hm.ne', if_neg hn.ne', if_neg (by omega), Int.bmod_add_bmod, Int.natCast_add,
    Int.add_assoc]

/-- Where the sum is an `off_t` it does not wrap. -/
theorem offAdd_eq {off : Int} {n : Nat} (h : -2 ^ 63 ≤ off) (h' : off + n < 2 ^ 63) :
    offAdd off n = off + n := by
  unfold offAdd
  split
  · next hn => rw [hn, Int.natCast_zero, Int.add_zero]
  · exact Int.bmod_eq_of_le_mul_two (by push_cast; omega) (by push_cast; omega)

/-! ## The write callback -/

/-- What the write callback returns: the size of the chunk,
`CURL_WRITEFUNC_PAUSE`, or something else. A chunk is never as large as the
last two. -/
inductive WriteRet where
  | size
  | pause
  | fail
deriving Repr, DecidableEq

/-- `sl_http_write_cb_`. -/
def slHttpWriteCb_ (http : SlHttp) (curlbuf : Bytes) : WriteRet × SlHttp :=
  let http := { http with curl := { http.curl with
    presented := http.curl.presented ++ [(http.curlbufOff, curlbuf.length)] } }
  let outbuf_avail := sizeSub http.outbufSize http.outbufOff
  let curlbuf_avail := sizeSub curlbuf.length http.curlbufOff
  let outp := curlbuf.drop http.curlbufOff
  if http.state = .abortRequested then
    -- the two calls on the multi handle are refused here
    (.fail, { http with state := .aborted })
  else if curlbuf_avail < outbuf_avail then
    (.size, { http with
      outbuf := http.outbuf.write http.outbufOff (outp.take curlbuf_avail)
      outbufOff := http.outbufOff + curlbuf_avail
      curlbufOff := 0
      httpOff := offAdd http.httpOff curlbuf_avail })
  else
    (.pause, { http with
      outbuf := http.outbuf.write http.outbufOff (outp.take outbuf_avail)
      outbufOff := http.outbufOff + outbuf_avail
      curlbufOff := http.curlbufOff + outbuf_avail
      httpOff := offAdd http.httpOff outbuf_avail
      state := .paused })

/-! ## The transfer -/

/-- What the transfer has still to deliver. -/
def SlHttp.setEvents (http : SlHttp) (events : List CurlEvent) : SlHttp :=
  { http with curl := { http.curl with events } }

def SlHttp.setPaused (http : SlHttp) (paused : Bool) : SlHttp :=
  { http with curl := { http.curl with paused } }

/-- Deliver the next event. -/
def deliverOne (http : SlHttp) : SlHttp :=
  if http.curl.paused then http
  else
    match http.curl.events with
    | [] => http
    | .header line :: events =>
        match slHttpHeaderCb_ http line with
        | (taken, http) => http.setEvents (if taken = line.length then events else [])
    | .chunk b :: events =>
        match slHttpWriteCb_ http b with
        | (.size, http) => http.setEvents events
        | (.pause, http) => http.setPaused true
        | (.fail, http) => http.setEvents []

/-- Deliver up to `n` events, to the first pause. -/
def deliver : Nat → SlHttp → SlHttp
  | 0, http => http
  | n + 1, http => deliver n (deliverOne http)

/-- `curl_multi_perform`, with the number of running handles. -/
def multiPerform (n : Nat) (http : SlHttp) : SlHttp × Nat :=
  (deliver n http, if (deliver n http).curl.events.isEmpty then 0 else 1)

/-- `curl_easy_pause(curl, CURLPAUSE_CONT)`. -/
def easyPauseCont (n : Nat) (http : SlHttp) : SlHttp :=
  if http.curl.paused then deliver n (http.setPaused false) else http

/-- `curl_multi_remove_handle` and `curl_multi_add_handle`: a new transfer,
whose response is `next`. -/
def restart (next : List CurlEvent) (http : SlHttp) : SlHttp :=
  (http.setEvents next).setPaused false

/-! ## The stream -/

/-- One round of a polling loop: whether `curl_multi_wait` and
`curl_multi_perform` succeed, and how many events are delivered. -/
structure Poll where
  wait : Bool
  events : Nat
  perform : Bool

/-- The context as `sl_http_open` fills it in, from the memory it got; the
response to the first request is `first`. -/
def slHttpOpen (mem : SlHttp) (first : List CurlEvent) : SlHttp :=
  { mem with
    curl := { range := none, events := first, paused := false, presented := [] }
    httpOff := 0
    httpLen := -1
    httpStatus := 0
    httpRangeAllowed := .unknown
    curlbufOff := 0
    state := .ready }

/-- The loop of `sl_http_read_cb`. It returns `outbuf_off`, and polls on
while there are rounds. -/
def readLoop (polls : List Poll) (http : SlHttp) : Option (Nat × SlHttp) :=
  if http.outbufOff < http.outbufSize then
    match polls with
    | [] => none
    | poll :: polls =>
        if !poll.wait then some (http.outbufOff, http)
        else
          match multiPerform poll.events http with
          | (http, count) =>
              if !poll.perform || count == 0 then
                let http := if count == 0 then { http with state := .ready } else http
                some (http.outbufOff, http)
              else
                readLoop polls
                  (if http.state = .ready then { http with state := .working } else http)
  else some (http.outbufOff, http)

/-- `sl_http_read_cb`. -/
def slHttpReadCb (http : SlHttp) (buffer : ByteMem UInt8) (len cont : Nat) (polls : List Poll) :
    Option (Nat × SlHttp) :=
  let http := { http with outbuf := buffer, outbufOff := 0, outbufSize := len }
  readLoop polls (if http.state = .paused then easyPauseCont cont http else http)

/-- The loop of `sl_cancel_transfer_`. -/
def cancelLoop : List Poll → SlHttp → Option SlHttp
  | [], _ => none
  | poll :: polls, http =>
      match multiPerform poll.events http with
      | (http, count) => if poll.perform && 0 < count then cancelLoop polls http else some http

/-- `sl_cancel_transfer_`. -/
def slCancelTransfer_ (http : SlHttp) (cont : Nat) (polls : List Poll) : Option SlHttp :=
  if http.state = .ready then some { http with curlbufOff := 0 }
  else
    let http :=
      if http.state = .paused then easyPauseCont cont { http with state := .abortRequested }
      else { http with state := .abortRequested }
    (if http.state ≠ .aborted then cancelLoop polls http else some http).map fun http =>
      { http with curlbufOff := 0 }

/-- `sl_http_seek_cb`. The response to the new request is `next`. -/
def slHttpSeekCb (http : SlHttp) (offset whence : Int) (cont : Nat) (polls : List Poll)
    (next : List CurlEvent) : Option (Int × SlHttp) :=
  if offset < 0 ∧ whence = slSeekSet then some (-1, http)
  else
    let range_str := toString offset ++ "-"
    (slCancelTransfer_ http cont polls).map fun http =>
      (0, restart next { http with
        curl := { http.curl with range := some range_str }
        httpOff := offset
        curlbufOff := 0 })

def slHttpTellCb (http : SlHttp) : Int := http.httpOff

/-! ## Runs of calls -/

/-- The calls on the stream, with what libcurl does in them. -/
inductive HttpCall where
  | read (buffer : ByteMem UInt8) (len cont : Nat) (polls : List Poll)
  | seek (offset whence : Int) (cont : Nat) (polls : List Poll) (next : List CurlEvent)

/-- A call that returned, and what `tell` says after it. -/
inductive HttpEvent where
  | read (len : Nat) (bytes : Bytes) (tell : Int)
  | seek (offset whence code tell : Int)
deriving Repr, DecidableEq

/-- The context, and the history of the calls that returned. -/
structure HttpSys where
  http : SlHttp
  trace : List HttpEvent

/-- A call that returns. -/
def httpStep (a : HttpCall) (x : HttpSys) : Option HttpSys :=
  match a with
  | .read buffer len cont polls =>
      (slHttpReadCb x.http buffer len cont polls).map fun (read, http) =>
        ⟨http, x.trace ++ [.read len (http.outbuf.read 0 read) (slHttpTellCb http)]⟩
  | .seek offset whence cont polls next =>
      (slHttpSeekCb x.http offset whence cont polls next).map fun (code, http) =>
        ⟨http, x.trace ++ [.seek offset whence code (slHttpTellCb http)]⟩

/-- The stream after `sl_http_open`. -/
def httpStream (first : List CurlEvent) : Lts HttpSys HttpCall where
  init x := ∃ mem, x = ⟨slHttpOpen mem first, []⟩
  step := httpStep

end Streamlike
