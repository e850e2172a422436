import Streamlike.HttpCalls
import Streamlike.HttpOrder

/-!
# Short reads

A read comes up short when the transfer ends, and `sl_http_eof_cb` says so
only when a length has been learnt that is not beyond the offset;
`sl_http_error_cb` never says anything. The two agree exactly when the
response, or one before it, has given such a length by then.

`Ends` follows a read through its events: with what it has to deliver, the
bytes, the offset and the length it comes to are fixed from the beginning,
until `outbuf` is full. `slHttpReadCb_short` is the specification of the
call.
-/

namespace Streamlike

open CString

/-! ## What a read has to deliver -/

/-- What the rounds of a read deliver when nothing pauses the transfer: all
there is, or what comes before a round that fails. -/
def roundEvents : List Poll → List CurlEvent → List CurlEvent
  | [], events => events
  | poll :: polls, events =>
      if poll.wait then
        events.take poll.events
          ++ if poll.perform then roundEvents polls (events.drop poll.events) else []
      else []

def isHeader : CurlEvent → Bool
  | .header _ => true
  | .chunk _ => false

/-- The events up to the first chunk, when that is to be aborted at. -/
def SlHttp.heeded (http : SlHttp) (events : List CurlEvent) : List CurlEvent :=
  if http.state = .abortRequested then events.takeWhile isHeader else events

/-- What a read has to deliver. -/
def SlHttp.toRead (http : SlHttp) (cont : Nat) (polls : List Poll) : List CurlEvent :=
  let resumed := if http.curl.paused then cont else 0
  http.heeded
    (http.curl.events.take resumed ++ roundEvents polls (http.curl.events.drop resumed))

/-- The bytes of the events from `curlbuf_off` on. -/
def SlHttp.bytesIn (http : SlHttp) (events : List CurlEvent) : Nat :=
  (body events).length - http.curlbufOff

/-- The length when a line has been learnt from. -/
def learntLen (len status : Int) (line : Bytes) : Int :=
  if statusOf line = none ∧ len < 0 then
    ((textOf status line).map fun text => toOffT (strtoull text)).getD len
  else len

/-- The length when the events have been delivered, with the status they
leave. -/
def lengthAfter : Int → Int → List CurlEvent → Int
  | len, _, [] => len
  | len, status, .chunk _ :: events => lengthAfter len status events
  | len, status, .header line :: events =>
      if unsatisfiable line then len
      else lengthAfter (learntLen len status line) ((statusOf line).getD status) events

@[simp] theorem SlHttp.heeded_nil (http : SlHttp) : http.heeded [] = [] := by
  unfold heeded
  split <;> rfl

theorem roundEvents_nil (polls : List Poll) : roundEvents polls [] = [] := by
  induction polls with
  | nil => rfl
  | cons poll polls ih =>
      rw [roundEvents, List.take_nil, List.drop_nil, ih]
      split_ifs <;> rfl

/-- What the callback does with a header line. -/
theorem deliverOne_learnt {http : SlHttp} {line : Bytes} {events : List CurlEvent}
    (hp : http.curl.paused = false) (he : http.curl.events = .header line :: events) :
    ∃ range, deliverOne http = { http with
      httpLen := learntLen http.httpLen http.httpStatus line
      httpStatus := (statusOf line).getD http.httpStatus
      httpRangeAllowed := range
      curl := { http.curl with events := if unsatisfiable line then [] else events } } := by
  have hlearnt : ∃ range, (slHttpHeaderCb_ http line).2 = { http with
      httpLen := learntLen http.httpLen http.httpStatus line
      httpStatus := (statusOf line).getD http.httpStatus
      httpRangeAllowed := range } := by
    refine ⟨(slHttpHeaderCb_ http line).2.httpRangeAllowed, ?_⟩
    unfold learntLen
    cases hstatus : statusOf line with
    | some status =>
        rw [headerCb_eq, hstatus]
        simp
    | none =>
        rw [headerCb_field hstatus]
        simp
  obtain ⟨range, hlearnt⟩ := hlearnt
  rw [deliverOne_header hp he, hlearnt]
  exact ⟨range, rfl⟩

/-- A 416 status line is a status line. -/
theorem statusOf_unsatisfiable {line : Bytes} (h : unsatisfiable line = true) :
    statusOf line = some 416 := by
  unfold unsatisfiable at h
  simp only [Bool.and_eq_true, beq_iff_eq] at h
  exact h.2

/-! ## A read, event by event -/

/-- What comes when the events `events` are delivered and nothing pauses
the transfer: `total` bytes in `outbuf`, the offset `off`, the length
`len`. -/
structure SlHttp.Coming (http : SlHttp) (total : Nat) (off len : Int) (events : List CurlEvent) :
    Prop where
  unpaused : http.curl.paused = false
  bytes : http.outbufOff + http.bytesIn (http.heeded events) = total
  tell : offAdd http.httpOff (http.bytesIn (http.heeded events)) = off
  length : lengthAfter http.httpLen http.httpStatus (http.heeded events) = len

/-- Inside a read of `size` bytes that has to deliver `events`: it is full,
or comes to what was to come when it began. -/
structure Ends (size total : Nat) (off len : Int) (events : List CurlEvent) (http : SlHttp) :
    Prop where
  fits : Fits http.curlbufOff http.curl.events
  outbufSize : http.outbufSize = size
  room : http.outbufOff ≤ size
  coming : http.outbufOff = size ∧ size ≤ total ∨ http.Coming total off len events

variable {size total : Nat} {off len : Int}

/-- A header line. -/
theorem SlHttp.Coming.header {http : SlHttp} {line : Bytes} {events rest : List CurlEvent}
    (hi : http.Coming total off len (.header line :: rest))
    (he : http.curl.events = .header line :: events) :
    (deliverOne http).Coming total off len (if unsatisfiable line then [] else rest) := by
  obtain ⟨hp, hbytes, htell, hlength⟩ := hi
  obtain ⟨range, hlearnt⟩ := deliverOne_learnt hp he
  have hcut : http.heeded (.header line :: rest) = .header line :: http.heeded rest := by
    unfold heeded
    split <;> rfl
  rw [hcut, bytesIn, body] at hbytes htell
  rw [hcut, lengthAfter] at hlength
  rw [hlearnt]
  split
  · next hu =>
    rw [if_pos hu] at hbytes htell hlength
    refine ⟨hp, ?_, ?_, ?_⟩
    · show http.outbufOff + http.bytesIn (http.heeded []) = total
      rwa [heeded_nil]
    · show offAdd http.httpOff (http.bytesIn (http.heeded [])) = off
      rwa [heeded_nil]
    · show lengthAfter (learntLen _ _ line) _ (http.heeded []) = len
      rw [heeded_nil, lengthAfter, learntLen, if_neg (by simp [statusOf_unsatisfiable hu])]
      exact hlength
  · next hu =>
    rw [if_neg hu] at hbytes htell hlength
    exact ⟨hp, hbytes, htell, hlength⟩

theorem Ends.event {k : Nat} {more : List CurlEvent → List CurlEvent} (hmore : more [] = [])
    {http : SlHttp}
    (hi : Ends size total off len
      (http.curl.events.take (k + 1) ++ more (http.curl.events.drop (k + 1))) http) :
    Ends size total off len
      ((deliverOne http).curl.events.take k ++ more ((deliverOne http).curl.events.drop k))
      (deliverOne http) := by
  have hd := deliverOne_cases http
  have hfits := hi.fits.delivered hd
  have hroom := sizeSub_of_le (hi.outbufSize ▸ hi.room)
  have hsize := hi.outbufSize
  generalize hone : deliverOne http = http' at hd hfits ⊢
  cases hd with
  | none h =>
      refine ⟨hfits, hsize, hi.room, hi.coming.imp_right fun hcoming => ?_⟩
      have hnil := h.resolve_left (by rw [hcoming.unpaused]; exact Bool.false_ne_true)
      rw [hnil, List.take_nil, List.drop_nil] at hcoming ⊢
      exact hcoming
  | @header line events _ _ _ hp he =>
      refine ⟨hfits, hsize, hi.room, hi.coming.imp_right fun hcoming => ?_⟩
      rw [he, List.take_succ_cons, List.drop_succ_cons, List.cons_append] at hcoming
      have hnext := hcoming.header he
      rw [hone] at hnext
      convert hnext using 1
      show List.take k (if unsatisfiable line then [] else events)
        ++ more ((if unsatisfiable line then [] else events).drop k) = _
      split
      · rw [List.take_nil, List.drop_nil, hmore]
        rfl
      · rfl
  | @abort b events hp he hs =>
      refine ⟨hfits, hsize, hi.room, hi.coming.imp_right fun hcoming => ?_⟩
      obtain ⟨-, hbytes, htell, hlength⟩ := hcoming
      have hcut : http.heeded (http.curl.events.take (k + 1)
          ++ more (http.curl.events.drop (k + 1))) = [] := by
        rw [SlHttp.heeded, if_pos hs, he]
        rfl
      rw [hcut] at hbytes htell hlength
      have hnil : ([] : List CurlEvent).take k ++ more ([].drop k) = [] := by
        rw [List.take_nil, List.drop_nil, hmore]
        rfl
      show SlHttp.Coming _ total off len (List.take k [] ++ more (List.drop k []))
      rw [hnil]
      exact ⟨hp, hbytes, htell, hlength⟩
  | @take b events n hp he hs hn hlt =>
      rw [hroom, hsize] at hlt
      refine ⟨hfits, hsize, by show http.outbufOff + n ≤ size; omega, .inr ?_⟩
      obtain ⟨-, hbytes, htell, hlength⟩ := hi.coming.resolve_left (by omega)
      have hfit := hi.fits.chunk he
      rw [sizeSub_of_le hfit] at hn
      rw [SlHttp.heeded, if_neg hs, he, List.take_succ_cons, List.drop_succ_cons,
        List.cons_append] at hbytes htell hlength
      rw [SlHttp.bytesIn, body, List.length_append] at hbytes htell
      have hheeded : http.heeded (events.take k ++ more (events.drop k))
          = events.take k ++ more (events.drop k) := if_neg hs
      refine ⟨hp, ?_, ?_, ?_⟩
      · show http.outbufOff + n + ((body (http.heeded _)).length - 0) = total
        rw [hheeded]
        omega
      · show offAdd (offAdd http.httpOff n) ((body (http.heeded _)).length - 0) = off
        rw [hheeded, offAdd_offAdd, ← htell]
        exact congrArg (offAdd http.httpOff) (by omega)
      · show lengthAfter http.httpLen http.httpStatus (http.heeded _) = len
        rw [hheeded]
        exact hlength
  | @fill b events n hp he hs hn hle =>
      rw [hroom, hsize] at hn
      have hroom := hi.room
      have hfull : http.outbufOff + n = size := by omega
      refine ⟨hfits, hsize, hfull.le, .inl ⟨hfull, ?_⟩⟩
      rcases hi.coming with ⟨-, hle⟩ | ⟨-, hbytes, -, -⟩
      · exact hle
      · rw [SlHttp.heeded, if_neg hs, he, List.take_succ_cons, List.cons_append, SlHttp.bytesIn,
          body, List.length_append] at hbytes
        rw [sizeSub_of_le (hi.fits.chunk he)] at hle
        omega

theorem Ends.deliver (more : List CurlEvent → List CurlEvent) (hmore : more [] = []) (k : Nat)
    {http : SlHttp}
    (hi : Ends size total off len (http.curl.events.take k ++ more (http.curl.events.drop k))
      http) :
    Ends size total off len (more (deliver k http).curl.events) (deliver k http) := by
  induction k generalizing http with
  | zero => simpa [Streamlike.deliver] using hi
  | succ k ih => exact ih (hi.event hmore)

/-- Where a read ends: full, or with nothing more to deliver. -/
theorem Ends.result {events : List CurlEvent} {http : SlHttp}
    (hi : Ends size total off len events http) (hend : events = [] ∨ size ≤ http.outbufOff) :
    http.outbufOff = min size total
      ∧ (http.outbufOff < size → http.httpOff = off ∧ http.httpLen = len) := by
  have hroom := hi.room
  rcases hi.coming with ⟨hfull, hle⟩ | ⟨-, hbytes, htell, hlength⟩
  · exact ⟨by omega, fun h => by omega⟩
  · rcases hend with rfl | hfull
    · rw [SlHttp.heeded_nil] at hbytes htell hlength
      simp only [SlHttp.bytesIn, body, List.length_nil, Nat.zero_sub] at hbytes htell
      exact ⟨by omega, fun _ => ⟨htell, hlength⟩⟩
    · exact ⟨by omega, fun h => by omega⟩

/-- What a change of the state leaves, other than to a request to abort. -/
theorem Ends.setState {events : List CurlEvent} {http : SlHttp} {state : HttpState}
    (hi : Ends size total off len events http) (hs : http.state ≠ .abortRequested)
    (hs' : state ≠ .abortRequested) :
    Ends size total off len events { http with state } := by
  refine ⟨hi.fits, hi.outbufSize, hi.room, hi.coming.imp_right fun hcoming => ?_⟩
  obtain ⟨hp, hbytes, htell, hlength⟩ := hcoming
  have hheeded : SlHttp.heeded { http with state } events = http.heeded events := by
    rw [SlHttp.heeded, if_neg hs', SlHttp.heeded, if_neg hs]
  refine ⟨hp, ?_, ?_, ?_⟩ <;> rw [hheeded]
  · exact hbytes
  · exact htell
  · exact hlength

theorem Ends.readLoop {polls : List Poll} {http http' : SlHttp} {n : Nat}
    (hi : Ends size total off len (roundEvents polls http.curl.events) http)
    (h : readLoop polls http = some (n, http')) :
    n = min size total ∧ (n < size → http'.httpOff = off ∧ http'.httpLen = len) := by
  induction polls generalizing http with
  | nil =>
      by_cases hlt : http.outbufOff < http.outbufSize
      · rw [Streamlike.readLoop, if_pos hlt] at h
        cases h
      · rw [readLoop_full (not_lt.mp hlt)] at h
        obtain ⟨rfl, rfl⟩ := Prod.mk.inj (Option.some.inj h)
        exact hi.result (.inr (by rw [← hi.outbufSize]; exact not_lt.mp hlt))
  | cons poll polls ih =>
      by_cases hlt : http.outbufOff < http.outbufSize
      · rw [readLoop_round hlt] at h
        rw [roundEvents] at hi
        dsimp only at h
        split at h
        · next hwait =>
          obtain ⟨rfl, rfl⟩ := Prod.mk.inj (Option.some.inj h)
          rw [if_neg (by rw [hwait]; exact Bool.false_ne_true)] at hi
          exact hi.result (.inl rfl)
        next hwait =>
        rw [if_pos (by simpa using hwait)] at hi
        have hdel := hi.deliver
          (fun events => if poll.perform then roundEvents polls events else [])
          (by rw [roundEvents_nil]; exact ite_self _) poll.events
        split at h
        · next hnil =>
          obtain ⟨rfl, rfl⟩ := Prod.mk.inj (Option.some.inj h)
          rw [hnil, roundEvents_nil, ite_self] at hdel
          exact hdel.result (.inl rfl)
        split at h
        · next hperform =>
          obtain ⟨rfl, rfl⟩ := Prod.mk.inj (Option.some.inj h)
          rw [if_neg (by rw [hperform]; exact Bool.false_ne_true)] at hdel
          exact hdel.result (.inl rfl)
        next hperform =>
        rw [if_pos (by simpa using hperform)] at hdel
        refine ih ?_ h
        split
        · next hready => exact hdel.setState (by simp [hready]) (by simp)
        · exact hdel
      · rw [readLoop_full (not_lt.mp hlt)] at h
        obtain ⟨rfl, rfl⟩ := Prod.mk.inj (Option.some.inj h)
        exact hi.result (.inr (by rw [← hi.outbufSize]; exact not_lt.mp hlt))

/-- What a read returns, and where it leaves the offset and the length when
it comes up short. -/
theorem slHttpReadCb_short {http http' : SlHttp} {buffer : ByteMem UInt8} {len cont n : Nat}
    {polls : List Poll} (hsound : HttpSound http)
    (h : slHttpReadCb http buffer len cont polls = some (n, http')) :
    n = min len (http.bytesIn (http.toRead cont polls))
      ∧ (n < len →
          http'.httpOff = offAdd http.httpOff (http.bytesIn (http.toRead cont polls))
          ∧ http'.httpLen = lengthAfter http.httpLen http.httpStatus (http.toRead cont polls)) := by
  rw [slHttpReadCb_eq fun hp => (hsound.paused hp).1] at h
  have hbegin : Ends len (http.bytesIn (http.toRead cont polls))
      (offAdd http.httpOff (http.bytesIn (http.toRead cont polls)))
      (lengthAfter http.httpLen http.httpStatus (http.toRead cont polls))
      (http.curl.events.take (if http.curl.paused then cont else 0)
        ++ roundEvents polls (http.curl.events.drop (if http.curl.paused then cont else 0)))
      (http.begin buffer len) := by
    refine ⟨hsound.fits, rfl, Nat.zero_le _, .inr ⟨rfl, ?_, rfl, rfl⟩⟩
    exact Nat.zero_add _
  exact (Ends.deliver (roundEvents polls) (roundEvents_nil polls) _ hbegin).readLoop h

/-! ## Runs -/

/-- A short read that comes last is explained: `sl_http_eof_cb` or
`sl_http_error_cb` is nonzero after it. -/
def HttpSys.Explained (x : HttpSys) : Prop :=
  ∀ trace len bytes (tell : Int), x.trace = trace ++ [.read len bytes tell] →
    bytes.length < len → slHttpEofCb x.http = true ∨ slHttpErrorCb x.http ≠ 0

/-- When the read runs out of bytes, a length is known by then, and the
offset it runs out at, as an `off_t`, is not before it. -/
def SlHttp.EndsAtLength (http : SlHttp) (len cont : Nat) (polls : List Poll) : Prop :=
  let events := http.toRead cont polls
  http.bytesIn events < len →
    0 ≤ lengthAfter http.httpLen http.httpStatus events
      ∧ lengthAfter http.httpLen http.httpStatus events
        ≤ offAdd http.httpOff (http.bytesIn events)

instance (http : SlHttp) (len cont : Nat) (polls : List Poll) :
    Decidable (http.EndsAtLength len cont polls) :=
  inferInstanceAs (Decidable (_ → _))

/-- The condition on the reads of a run. -/
def ReadsEndAtLength (x : HttpSys) : HttpCall → Prop
  | .read _ len cont polls => x.http.EndsAtLength len cont polls
  | .seek .. => True

theorem explained_read_iff {x x' : HttpSys} (hsound : HttpSound x.http)
    {buffer : ByteMem UInt8} {len cont : Nat} {polls : List Poll} {first : List CurlEvent}
    (h : (httpStream first).step (.read buffer len cont polls) x = some x') :
    x'.Explained ↔ x.http.EndsAtLength len cont polls := by
  obtain ⟨⟨n, http'⟩, hread, rfl⟩ := Option.map_eq_some_iff.mp h
  obtain ⟨hn, hshort⟩ := slHttpReadCb_short hsound hread
  have hanswer : HttpSys.Explained
        ⟨http', x.trace ++ [.read len (http'.outbuf.read 0 n) (slHttpTellCb http')]⟩
      ↔ (n < len → slHttpEofCb http' = true) := by
    constructor
    · intro hexplained hlt
      have hbytes : (http'.outbuf.read 0 n).length < len := by rwa [ByteMem.length_read]
      exact (hexplained _ _ _ _ rfl hbytes).resolve_right fun h => h rfl
    · intro heof trace len' bytes tell htrace hlt
      obtain ⟨-, hlast⟩ := List.append_inj' htrace rfl
      obtain ⟨rfl, rfl, -⟩ := HttpEvent.read.inj (List.cons.inj hlast).1
      rw [ByteMem.length_read] at hlt
      exact .inl (heof hlt)
  rw [hanswer, SlHttp.EndsAtLength]
  have hiff : n < len ↔ x.http.bytesIn (x.http.toRead cont polls) < len := by omega
  rw [← hiff]
  refine imp_congr_right fun hlt => ?_
  obtain ⟨htell, hlength⟩ := hshort hlt
  rw [slHttpEofCb, htell, hlength]
  simp [and_comm]

theorem explained_of_reach {first : List CurlEvent} {x : HttpSys}
    (h : (httpStream first).Reach ReadsEndAtLength x) : x.Explained := by
  cases h with
  | init hi =>
      obtain ⟨mem, rfl⟩ := hi
      intro trace _ _ _ h
      cases trace <;> cases h
  | @step y _ a hy ha hs =>
      cases a with
      | read buffer len cont polls => exact (explained_read_iff (sound_of_reach hy) hs).mpr ha
      | seek offset whence cont polls next =>
          obtain ⟨⟨code, http'⟩, -, rfl⟩ := Option.map_eq_some_iff.mp hs
          intro trace _ _ _ h
          cases (List.append_inj' h rfl).2

/-- Once the transfer is over, a read returns nothing. -/
theorem read_of_ended {x x' : HttpSys} (hsound : HttpSound x.http) (hnil : x.http.curl.events = [])
    {buffer : ByteMem UInt8} {len cont : Nat} {polls : List Poll} {first : List CurlEvent}
    (h : (httpStream first).step (.read buffer len cont polls) x = some x') :
    x'.trace = x.trace ++ [.read len [] (slHttpTellCb x'.http)] := by
  obtain ⟨⟨n, http'⟩, hread, rfl⟩ := Option.map_eq_some_iff.mp h
  obtain ⟨hn, -⟩ := slHttpReadCb_short hsound hread
  have hnone : x.http.toRead cont polls = [] := by
    rw [SlHttp.toRead, hnil]
    simp [roundEvents_nil]
  rw [hnone, SlHttp.bytesIn, body, List.length_nil, Nat.zero_sub, Nat.min_zero] at hn
  subst hn
  rfl

/-- **A short read is explained** in the runs in which every read that runs
out of bytes does so at or behind a length that is known by then. In any
run, this holds of a read exactly when it does so; and once the transfer is
over every read comes up empty. -/
theorem short_reads_explained_iff (first : List CurlEvent) :
    (∀ x, (httpStream first).Reach ReadsEndAtLength x → x.Explained)
      ∧ ∀ x, (httpStream first).Reach Lts.Any x → ∀ buffer len cont polls x',
          (httpStream first).step (.read buffer len cont polls) x = some x' →
          (x'.Explained ↔ x.http.EndsAtLength len cont polls)
            ∧ (x.http.curl.events = [] →
                x'.trace = x.trace ++ [.read len [] (slHttpTellCb x'.http)]) := by
  refine ⟨fun x h => explained_of_reach h, fun x h buffer len cont polls x' hs => ?_⟩
  have hsound := sound_of_reach h
  exact ⟨explained_read_iff hsound hs, fun hnil => read_of_ended hsound hnil hs⟩

/-- With a `Content-Length`, a short read and an empty one. -/
theorem short_reads_explained_iff_run :
    ∃ x : HttpSys, x.trace = [.read 2 [1] 1, .read 1 [] 1] ∧ x.Explained := by
  let one : Poll := ⟨true, 3, true⟩
  let first : List CurlEvent :=
    [.header (httpLit ++ [49, 46, 49, 32, 50, 48, 48, 13, 10]),
      .header (cntLen ++ [58, 32, 49, 13, 10]), .chunk [1]]
  let start : SlHttp :=
    slHttpOpen ⟨0, 0, 0, .unknown, ⟨none, [], false, []⟩, 0, 0, 0, fun _ => 0, .ready⟩ first
  let read : HttpCall := .read (fun _ => 0) 2 1 [one]
  let again : HttpCall := .read (fun _ => 0) 1 1 [one]
  have hread : ((httpStream first).step read ⟨start, []⟩).map
      (fun x => (x.trace, decide (x.http.EndsAtLength 1 1 [one])))
      = some ([.read 2 [1] 1], true) := by decide +kernel
  have hagain : (((httpStream first).step read ⟨start, []⟩).bind
      ((httpStream first).step again)).map (·.trace)
      = some [.read 2 [1] 1, .read 1 [] 1] := by decide +kernel
  obtain ⟨x, hx, htrace⟩ := Option.map_eq_some_iff.mp hread
  obtain ⟨y, hy, htrace'⟩ := Option.map_eq_some_iff.mp hagain
  rw [hx, Option.bind_some] at hy
  simp only [Prod.mk.injEq, decide_eq_true_eq] at htrace
  have hreach : (httpStream first).Reach ReadsEndAtLength x := by
    refine .step (a := read) (.init ⟨_, rfl⟩) ?_ hx
    show SlHttp.EndsAtLength start 2 1 [one]
    decide +kernel
  exact ⟨y, htrace', (short_reads_explained_iff first).1 y (.step (a := again) hreach htrace.2 hy)⟩

/-- A 200 response without a length: the read that comes up short leaves
neither end of file nor an error, and so does every one after it. -/
theorem short_read_unexplained :
    ∃ x : HttpSys,
      (httpStream [.header (httpLit ++ [49, 46, 49, 32, 50, 48, 48, 13, 10]), .chunk [1]]).Reach
          Lts.Any x
        ∧ x.trace = [.read 2 [1] 1, .read 1 [] 1] ∧ ¬ x.Explained := by
  let one : Poll := ⟨true, 2, true⟩
  let first : List CurlEvent :=
    [.header (httpLit ++ [49, 46, 49, 32, 50, 48, 48, 13, 10]), .chunk [1]]
  let start : SlHttp :=
    slHttpOpen ⟨0, 0, 0, .unknown, ⟨none, [], false, []⟩, 0, 0, 0, fun _ => 0, .ready⟩ first
  let calls : List HttpCall := [.read (fun _ => 0) 2 1 [one], .read (fun _ => 0) 1 1 [one]]
  have hrun : ((httpStream first).run calls ⟨start, []⟩).map
      (fun x => (x.trace, slHttpEofCb x.http))
      = some ([.read 2 [1] 1, .read 1 [] 1], false) := by decide +kernel
  obtain ⟨x, hx, h⟩ := Option.map_eq_some_iff.mp hrun
  simp only [Prod.mk.injEq] at h
  obtain ⟨htrace, heof⟩ := h
  refine ⟨x, .run (fun _ _ _ => True.intro) (.init ⟨_, rfl⟩) hx, htrace, fun hexplained => ?_⟩
  rcases hexplained [.read 2 [1] 1] 1 [] 1 htrace (by decide) with h | h
  · rw [heof] at h
    cases h
  · exact h rfl

end Streamlike
