import Streamlike.Content
import Streamlike.HttpResponse
import Streamlike.HttpSeek

/-!
# The HTTP stream and the test server

The client and the server of the tests put together: every request that the
stream makes is answered by `test_server_handler`, from a content that does
not change. Through all cutting of responses and pausing of transfers the
stream is that content, read and sought (`served_content`), and once it has
delivered a byte it knows the length and that it is seekable
(`served_answers`).

This is of the runs in which libcurl reports no error and every seek, with
`SL_SEEK_SET` where its offset is negative, finds nothing to cancel or a
chunk to abort at (`ServedBy`), which is so when all seeks are to offsets
inside the content (`ServedInside`).
-/

namespace Streamlike

open CString CFormat

/-! ## Runs -/

/-- A seek that libcurl and the server answer: the offset is an `off_t`,
negative with `SL_SEEK_SET` only, the seek finds nothing to cancel or a
chunk to abort at, and what comes next is the answer to the request that
the easy handle is then set up for. -/
def SeekServed (server : TestServer) (http : SlHttp) (offset whence : Int) (cont : Nat)
    (polls : List Poll) (next : List CurlEvent) : Prop :=
  (∀ poll ∈ polls, poll.Ok) ∧ (0 ≤ offset ∨ whence = slSeekSet) ∧ offset < 2 ^ 63
    ∧ http.Cancels
    ∧ ∀ http', slHttpSeekCb http offset whence cont polls next = some (0, http') →
        Answered server http'.curl.range next

/-- A call of the user in which libcurl reports no error, and in which the
server answers. -/
def ServedBy (server : TestServer) (x : HttpSys) : HttpCall → Prop
  | .read _ _ _ polls => ∀ poll ∈ polls, poll.Ok
  | .seek offset whence cont polls next => SeekServed server x.http offset whence cont polls next

def HttpEvent.content : HttpEvent → ContentEvent UInt8
  | .read len bytes tell => .read len bytes tell
  | .seek offset _ code tell => .seek offset code tell

/-- The stream against the content and a position in it. -/
structure Serving (server : TestServer) (x : HttpSys) (p : Position UInt8) : Prop where
  idle : HttpIdle x.http
  fed : ∃ (base : Nat) (got : Bytes),
    Fed (server.bytes.drop base) base got x.http ∧ p.pos = base + got.length
  inside : p.pos < 2 ^ 63
  trace : p.trace = x.trace.map HttpEvent.content
  learns : Learns server.contentLen x.http.learnt x.http.curl.events
  whole : bytesRead x.trace ≠ [] → x.http.learnt.Whole server.contentLen

section Runs

variable {server : TestServer} {x x' : HttpSys} {p : Position UInt8}

theorem Serving.pos (h : Serving server x p) : x.http.httpOff = p.pos := by
  obtain ⟨base, got, hfed, hpos⟩ := h.fed
  have hinside := h.inside
  rw [hfed.tell, hpos, Int.natCast_add, offAdd_eq (by omega) (by omega)]

/-- A seek leaves the range that it asks for in the easy handle. -/
theorem seek_range {http http' : SlHttp} {offset whence : Int} {cont : Nat} {polls : List Poll}
    {next : List CurlEvent}
    (h : slHttpSeekCb http offset whence cont polls next = some (0, http')) :
    http'.curl.range = some (toString offset ++ "-") := by
  rcases slHttpSeekCb_cases h with ⟨-, -, hcode, -⟩ | ⟨-, -, http₁, -, rfl⟩
  · cases hcode
  · rfl

theorem Serving.start (hlen : server.contentLen < 2 ^ 63) {first : List CurlEvent}
    (hfirst : Answered server none first) (mem : SlHttp) :
    Serving server ⟨slHttpOpen mem first, []⟩ ⟨0, []⟩ := by
  obtain ⟨hbody, hlearns⟩ := answered_none hlen hfirst
  refine ⟨⟨⟨.zero _, nofun⟩, nofun, nofun⟩, ⟨0, [], ⟨?_, rfl, nofun⟩, rfl⟩, by decide, rfl,
    hlearns _ rfl ⟨.inl rfl, .inl rfl⟩, fun h => absurd rfl h⟩
  exact hbody

/-- A read gives the next bytes of the content, all that it is asked for or
all that remain. -/
theorem Serving.gives (hlen : server.contentLen < 2 ^ 63) (h : Serving server x p)
    {http' : SlHttp} {buffer : ByteMem UInt8} {len cont n : Nat} {polls : List Poll}
    (hok : ∀ poll ∈ polls, poll.Ok)
    (hread : slHttpReadCb x.http buffer len cont polls = some (n, http')) :
    n = min len (server.bytes.length - p.pos)
      ∧ http'.outbuf.read 0 n = bytesAt server.bytes p.pos n
      ∧ Serving server
          ⟨http', x.trace ++ [.read len (http'.outbuf.read 0 n) (slHttpTellCb http')]⟩
          ⟨p.pos + n, p.trace ++ [.read len (bytesAt server.bytes p.pos n) (p.pos + n : Nat)]⟩ := by
  obtain ⟨base, got, hfed, hpos⟩ := h.fed
  obtain ⟨hfed', hidle', hle, hshort⟩ := hfed.read h.idle hok hread
  have hbytes := hfed'.bytes
  have hcount : got.length + n ≤ server.bytes.length - base := by
    have hlength := congrArg List.length hbytes
    simp only [List.length_append, ByteMem.length_read, List.length_drop] at hlength
    omega
  have hexact : n = min len (server.bytes.length - p.pos) := by
    rcases hle.eq_or_lt with rfl | hlt
    · omega
    · have hlength := congrArg List.length (hshort hlt).2
      simp only [List.length_append, ByteMem.length_read, List.length_drop] at hlength
      omega
  have hslice : http'.outbuf.read 0 n = bytesAt server.bytes p.pos n := by
    rw [bytesAt, hpos, ← List.drop_drop, ← hbytes, List.append_assoc, List.drop_left,
      List.take_left' (ByteMem.length_read _ _ _)]
  have hheard := slHttpReadCb_hears hread
  obtain ⟨hlearns, hoff⟩ := hheard.learns (Int.natCast_nonneg _) h.learns
  have hinside : p.pos + n < 2 ^ 63 := by
    have hbefore := h.inside
    rw [server.length_bytes] at hexact
    omega
  have htell : http'.httpOff = (p.pos + n : Nat) := by
    rw [hfed'.tell, List.length_append, ByteMem.length_read, offAdd_eq (by omega) (by omega), hpos]
    omega
  refine ⟨hexact, hslice, hidle', ⟨base, _, hfed', ?_⟩, hinside, ?_, hlearns, fun hne => ?_⟩
  · rw [List.length_append, ByteMem.length_read, hpos, Nat.add_assoc]
  · rw [List.map_append, ← h.trace, ← hslice, ← htell]
    rfl
  · by_cases hn : n = 0
    · refine (h.whole fun hnil => hne ?_).keeps (Int.natCast_nonneg _) hheard.keeps
      rw [bytesRead_append, hnil, hn]
      rfl
    · refine hoff.resolve_left fun heq => ?_
      have heq : http'.httpOff = x.http.httpOff := heq
      rw [htell, h.pos] at heq
      omega

/-- A seek is refused, or the answer to it is the content from the offset
on. -/
theorem Serving.seeks (hlen : server.contentLen < 2 ^ 63) (h : Serving server x p)
    {http' : SlHttp} {offset whence code : Int} {cont : Nat} {polls : List Poll}
    {next : List CurlEvent} (hok : SeekServed server x.http offset whence cont polls next)
    (hseek : slHttpSeekCb x.http offset whence cont polls next = some (code, http')) :
    offset < 0 ∧ code = -1 ∧ http' = x.http
      ∨ 0 ≤ offset ∧ code = 0
        ∧ body http'.curl.events = server.bytes.drop offset.toNat
        ∧ Serving server ⟨http', x.trace ++ [.seek offset whence 0 (slHttpTellCb http')]⟩
            ⟨offset.toNat, p.trace ++ [.seek offset 0 offset]⟩ := by
  obtain ⟨hpolls, hsign, hfits, hcancels, hanswer⟩ := hok
  rcases slHttpSeekCb_cases hseek with ⟨hneg, -, rfl, rfl⟩ | ⟨hpos, rfl, http₁, hcancel, hrestart⟩
  · exact .inl ⟨hneg, rfl, rfl⟩
  · have hoff : 0 ≤ offset := by
      rcases hsign with hoff | hset
      · exact hoff
      · exact Int.not_lt.mp fun hneg => hpos ⟨hneg, hset⟩
    obtain ⟨o, rfl⟩ := Int.eq_ofNat_of_zero_le hoff
    have hcarries := hanswer http' hseek
    rw [seek_range hseek] at hcarries
    obtain ⟨hbody, hlearns⟩ := answered_seek hlen (by omega) hcarries
    have hheard := slCancelTransfer_hears hcancel
    obtain ⟨hlearns₁, -⟩ := hheard.learns (Int.natCast_nonneg _) h.learns
    obtain ⟨-, hsought⟩ := (slHttpSeekCb_sought h.idle hpolls hseek).resolve_left
      fun hneg => by omega
    have hbody' : body http'.curl.events = server.bytes.drop o := by rw [hsought.events, hbody]
    refine .inr ⟨hoff, rfl, hbody', hsought.idle,
      ⟨o, [], ⟨?_, ?_, hsought.state.mpr hcancels⟩, rfl⟩, ?_, ?_, ?_, fun hne => ?_⟩
    · rw [hbody', hsought.curlbufOff, List.drop_zero, List.nil_append]
    · rw [hsought.httpOff]
      rfl
    · show o < 2 ^ 63
      omega
    · rw [List.map_append, ← h.trace, slHttpTellCb, hsought.httpOff]
      rfl
    · rw [hsought.events]
      refine hlearns _ hsought.httpOff ?_
      rw [hrestart]
      exact hlearns₁.sound
    · rw [bytesRead_append, bytesRead, bytesRead, List.append_nil] at hne
      have hwhole := (h.whole hne).keeps (Int.natCast_nonneg _) hheard.keeps
      rw [hrestart]
      exact hwhole

theorem Serving.read (hlen : server.contentLen < 2 ^ 63) (h : Serving server x p)
    {buffer : ByteMem UInt8} {len cont : Nat} {polls : List Poll} (hok : ∀ poll ∈ polls, poll.Ok)
    (hs : httpStep (.read buffer len cont polls) x = some x') :
    ∃ p', (content server.bytes).Steps (Exact server.bytes) p p' ∧ Serving server x' p' := by
  obtain ⟨⟨n, http'⟩, hread, rfl⟩ := Option.map_eq_some_iff.mp hs
  obtain ⟨hexact, -, hserving⟩ := h.gives hlen hok hread
  exact ⟨_, .single (a := .read len n) hexact (content_read (by omega) (by omega)), hserving⟩

theorem Serving.seek (hlen : server.contentLen < 2 ^ 63) (h : Serving server x p)
    {offset whence : Int} {cont : Nat} {polls : List Poll} {next : List CurlEvent}
    (hok : ServedBy server x (.seek offset whence cont polls next))
    (hs : httpStep (.seek offset whence cont polls next) x = some x') :
    ∃ p', (content server.bytes).Steps (Exact server.bytes) p p' ∧ Serving server x' p' := by
  obtain ⟨⟨code, http'⟩, hseek, rfl⟩ := Option.map_eq_some_iff.mp hs
  rcases h.seeks hlen hok hseek with ⟨hneg, rfl, rfl⟩ | ⟨hoff, rfl, -, hserving⟩
  · have hexact : ((-1 : Int) = 0 ↔ 0 ≤ offset) := by omega
    refine ⟨_, .single (a := .seek offset (-1)) hexact (content_refused (by decide)), h.idle,
      h.fed, h.inside, ?_, h.learns, ?_⟩
    · rw [List.map_append, ← h.trace, ← h.pos]
      rfl
    · rw [bytesRead_append, bytesRead, bytesRead, List.append_nil]
      exact h.whole
  · have hexact : ((0 : Int) = 0 ↔ 0 ≤ offset) := iff_of_true rfl hoff
    exact ⟨_, .single (a := .seek offset 0) hexact (content_seek hoff), hserving⟩

theorem serving_of_reach (hlen : server.contentLen < 2 ^ 63) {first : List CurlEvent}
    (hfirst : Answered server none first) (h : (httpStream first).Reach (ServedBy server) x) :
    ∃ p, (content server.bytes).Reach (Exact server.bytes) p ∧ Serving server x p := by
  refine h.simulate (R := Serving server) (fun x hx => ?_) (fun x a x' p _ hi ha hs => ?_)
  · obtain ⟨mem, rfl⟩ := hx
    exact ⟨_, rfl, .start hlen hfirst mem⟩
  · cases a with
    | read buffer len cont polls => exact hi.read hlen ha hs
    | seek offset whence cont polls next => exact hi.seek hlen ha hs

end Runs

/-! ## Seeks inside the content -/

theorem deliversBody_of_body {events : List CurlEvent} (h : body events ≠ []) :
    deliversBody events = true := by
  induction events with
  | nil => exact absurd rfl h
  | cons e events ih =>
      cases e with
      | header line =>
          rw [body] at h
          split at h
          · exact absurd rfl h
          · next hsat => rw [deliversBody, ih h, Bool.eq_false_iff.mpr hsat]; rfl
      | chunk b => rfl

/-- Inside a read: when `outbuf` is full there is still a chunk to come. -/
def ChunkLeft (http : SlHttp) : Prop :=
  HttpInv http ∧ http.state ≠ .abortRequested
    ∧ (http.outbufSize ≤ http.outbufOff → deliversBody http.curl.events = true)

theorem kept_chunkLeft : Kept ChunkLeft where
  delivered {http http'} hi hd := by
    obtain ⟨hinv, hstate, hleft⟩ := hi
    have hoff := sizeSub_of_le hinv.room
    refine ⟨hinv.delivered hd, ?_⟩
    cases hd with
    | none h => exact ⟨hstate, hleft⟩
    | @header line events len status range hp he =>
        refine ⟨hstate, fun hfull => ?_⟩
        have hbody := hleft hfull
        rw [he, deliversBody, Bool.and_eq_true, Bool.not_eq_true'] at hbody
        show deliversBody (if unsatisfiable line then [] else events) = true
        rw [hbody.1]
        exact hbody.2
    | abort hp he hs => exact absurd hs hstate
    | @take b events n hp he hs hn hlt =>
        refine ⟨hs, fun hfull => ?_⟩
        have hfull : http.outbufSize ≤ http.outbufOff + n := hfull
        omega
    | @fill b events n hp he hs hn hle =>
        refine ⟨(fun h => by cases h), fun _ => ?_⟩
        show deliversBody http.curl.events = true
        rw [he]
        rfl
  ready {http} hi hnil := by
    refine ⟨HttpInv.kept.ready hi.1 hnil, (fun h => by cases h), fun hfull => ?_⟩
    have hbody := hi.2.2 hfull
    rw [hnil] at hbody
    cases hbody
  working hi hready := ⟨HttpInv.kept.working hi.1 hready, (fun h => by cases h), hi.2.2⟩

/-- A read does not use up what a seek could be cancelled at. -/
theorem read_cancels {http http' : SlHttp} {buffer : ByteMem UInt8} {len cont n : Nat}
    {polls : List Poll} (hidle : HttpIdle http) (hok : ∀ poll ∈ polls, poll.Ok)
    (hstate : http.state ≠ .abortRequested) (hc : http.Cancels)
    (h : slHttpReadCb http buffer len cont polls = some (n, http')) : http'.Cancels := by
  by_cases hzero : http.state = .ready ∧ len = 0
  · obtain ⟨hready, rfl⟩ := hzero
    have hpaused : http.curl.paused = false := Bool.eq_false_iff.mpr fun hp => by
      have hs := hidle.paused hp
      rw [hready] at hs
      cases hs
    rw [slHttpReadCb_eq hidle.paused, hpaused, if_neg Bool.false_ne_true, deliver,
      readLoop_full (Nat.le_refl 0)] at h
    obtain ⟨-, rfl⟩ := Prod.mk.inj (Option.some.inj h)
    exact .inl hready
  · have hbegin : ChunkLeft (http.begin buffer len) := by
      refine ⟨hidle.begin buffer len, hstate, fun hfull => ?_⟩
      have hlen : len = 0 := Nat.le_zero.mp hfull
      exact hc.resolve_left fun hready => hzero ⟨hready, hlen⟩
    obtain ⟨⟨hleft, hsize⟩, -, rfl, hle, hshort⟩ := slHttpReadCb_keeps
      (kept_chunkLeft.and (.outbufSize len)) hidle hok ⟨hbegin, rfl⟩ h
    have hsize : http'.outbufSize = len := hsize
    rcases hle.eq_or_lt with hfull | hlt
    · exact .inr (hleft.2.2 (by omega))
    · exact .inl (hshort hlt).2

/-- After a seek inside the content there is a chunk to abort at. -/
theorem Serving.seek_cancels {server : TestServer} {x : HttpSys} {p : Position UInt8}
    (hlen : server.contentLen < 2 ^ 63) (h : Serving server x p) {http' : SlHttp}
    {offset whence code : Int} {cont : Nat} {polls : List Poll} {next : List CurlEvent}
    (hok : SeekServed server x.http offset whence cont polls next)
    (hin : offset < server.contentLen)
    (hseek : slHttpSeekCb x.http offset whence cont polls next = some (code, http')) :
    http'.Cancels := by
  rcases h.seeks hlen hok hseek with ⟨-, -, rfl⟩ | ⟨hoff, -, hbody, -⟩
  · exact hok.2.2.2.1
  · refine .inr (deliversBody_of_body fun hnil => ?_)
    have hlength := congrArg List.length (hbody.symm.trans hnil)
    rw [List.length_drop, server.length_bytes, List.length_nil] at hlength
    omega

/-- The calls of `ServedBy` in which every seek is to an offset inside the
content, whatever the state. -/
def ServedInside (server : TestServer) (x : HttpSys) : HttpCall → Prop
  | .read _ _ _ polls => ∀ poll ∈ polls, poll.Ok
  | .seek offset whence cont polls next =>
      (∀ poll ∈ polls, poll.Ok) ∧ 0 ≤ offset ∧ offset < server.contentLen
        ∧ ∀ http', slHttpSeekCb x.http offset whence cont polls next = some (0, http') →
            Answered server http'.curl.range next

theorem reach_servedBy {server : TestServer} (hlen : server.contentLen < 2 ^ 63)
    {first : List CurlEvent} (hfirst : Answered server none first) {x : HttpSys}
    (h : (httpStream first).Reach (ServedInside server) x) :
    (httpStream first).Reach (ServedBy server) x ∧ x.http.Cancels := by
  refine h.invariant (I := fun x => (httpStream first).Reach (ServedBy server) x ∧ x.http.Cancels)
    (fun x hx => ?_) (fun x a x' _ hi ha hs => ?_)
  · obtain ⟨mem, rfl⟩ := hx
    exact ⟨.init ⟨mem, rfl⟩, .inl rfl⟩
  · obtain ⟨hreach, hc⟩ := hi
    obtain ⟨p, -, hserving⟩ := serving_of_reach hlen hfirst hreach
    obtain ⟨base, got, hfed, -⟩ := hserving.fed
    cases a with
    | read buffer len cont polls =>
        refine ⟨.step (a := .read buffer len cont polls) hreach ha hs, ?_⟩
        obtain ⟨⟨n, http'⟩, hread, rfl⟩ := Option.map_eq_some_iff.mp hs
        exact read_cancels hserving.idle ha hfed.state hc hread
    | seek offset whence cont polls next =>
        obtain ⟨hpolls, hoff, hin, hanswer⟩ := ha
        have hserved : SeekServed server x.http offset whence cont polls next :=
          ⟨hpolls, .inl hoff, by omega, hc, hanswer⟩
        refine ⟨.step (a := .seek offset whence cont polls next) hreach hserved hs, ?_⟩
        obtain ⟨⟨code, http'⟩, hseek, rfl⟩ := Option.map_eq_some_iff.mp hs
        exact hserving.seek_cancels hlen hserved hin hseek

/-! ## The stream is the content -/

/-- **Against the test server the stream is the content.** In the runs in
which every `curl_multi_wait` and `curl_multi_perform` succeeds and every
seek, with `SL_SEEK_SET` where its offset is negative, finds nothing to
cancel or a chunk to abort at, for any content and any cutting of the
responses: each read returns the next bytes of the content, all that it is
asked for or all that remain; each seek to an offset that is not negative
succeeds, and `tell` is the position throughout. A seek finds that in every
run in which all seeks are to offsets inside the content. -/
theorem served_content (server : TestServer) (hlen : server.contentLen < 2 ^ 63)
    {first : List CurlEvent} (hfirst : Answered server none first) (x : HttpSys) :
    ((httpStream first).Reach (ServedBy server) x →
        ∃ p, (content server.bytes).Reach (Exact server.bytes) p
          ∧ p.trace = x.trace.map HttpEvent.content ∧ slHttpTellCb x.http = p.pos)
      ∧ ((httpStream first).Reach (ServedInside server) x →
        (httpStream first).Reach (ServedBy server) x) := by
  refine ⟨fun h => ?_, fun h => (reach_servedBy hlen hfirst h).1⟩
  obtain ⟨p, hp, hserving⟩ := serving_of_reach hlen hfirst h
  exact ⟨p, hp, hserving.trace, hserving.pos⟩

/-- The response as it comes without other headers. -/
def Response.events (r : Response) (chunks : List Bytes) : List CurlEvent :=
  .header (responseLine r.status (lit "OK")) :: (r.lines.map .header ++ chunks.map .chunk)

theorem Response.sent {r : Response} {chunks : List Bytes} (h : chunks.flatten = r.body) :
    Sent r (r.events chunks) :=
  ⟨lit "OK", r.lines, [], chunks, by rw [List.append_nil], nofun, h, rfl⟩

/-- The server of `[1, 2, 3]`, two of its responses, and polls without an
error. -/
def countServer : TestServer := ⟨fun i => UInt8.ofNat (i + 1), 3⟩

def countWhole : List CurlEvent := countServer.whole.events [[1, 2], [3]]

def countPart : List CurlEvent := (countServer.part 2 2).events [[3]]

def countPolls : List Poll := [⟨true, 4, true⟩, ⟨true, 4, true⟩]

theorem countWhole_answered : Answered countServer none countWhole :=
  ⟨[], _, nofun, handler_whole nofun, Response.sent (by decide)⟩

theorem countPart_answered : Answered countServer (some "2-") countPart :=
  ⟨[(lit "Range", rangeValue 2 [])], _, ⟨[], _, [], rfl, by decide, nofun⟩,
    handler_open (by decide) ⟨[], _, [], rfl, by decide, nofun⟩,
    Response.sent (r := countServer.part 2 2) (by decide)⟩

theorem countPolls_ok : ∀ poll ∈ countPolls, poll.Ok := by
  intro poll hpoll
  obtain rfl | rfl : poll = ⟨true, 4, true⟩ ∨ poll = ⟨true, 4, true⟩ := by
    simpa [countPolls] using hpoll
  all_goals exact ⟨rfl, rfl⟩

/-- The stream of the server's whole content. -/
def countStart : SlHttp :=
  slHttpOpen ⟨0, 0, 0, .unknown, ⟨none, [], false, []⟩, 0, 0, 0, fun _ => 0, .ready⟩ countWhole

/-- One byte, a seek to the last, and a short read, with the context that
they leave. -/
theorem countServer_run :
    ∃ x : HttpSys, (httpStream countWhole).Reach (ServedInside countServer) x
      ∧ x.trace = [.read 1 [1] 1, .seek 2 slSeekSet 0 2, .read 5 [3] 3] := by
  let calls : List HttpCall :=
    [.read (fun _ => 0) 1 1 countPolls, .seek 2 slSeekSet 1 countPolls countPart,
      .read (fun _ => 0) 5 1 countPolls]
  have hrun : ((httpStream countWhole).run calls ⟨countStart, []⟩).map (·.trace)
      = some [.read 1 [1] 1, .seek 2 slSeekSet 0 2, .read 5 [3] 3] := by decide +kernel
  obtain ⟨x, hx, htrace⟩ := Option.map_eq_some_iff.mp hrun
  refine ⟨x, .run (fun a ha s => ?_) (.init ⟨_, rfl⟩) hx, htrace⟩
  obtain rfl | rfl | rfl := by
    simpa only [calls, List.mem_cons, List.not_mem_nil, or_false] using ha
  · exact countPolls_ok
  · exact ⟨countPolls_ok, by decide, by decide,
      fun http' h => by rw [seek_range h]; exact countPart_answered⟩
  · exact countPolls_ok

theorem served_content_run :
    ∃ p : Position UInt8, (content [1, 2, 3]).Reach (Exact [1, 2, 3]) p
      ∧ p.trace = [.read 1 [1] 1, .seek 2 0 2, .read 5 [3] 3] := by
  obtain ⟨x, hx, htrace⟩ := countServer_run
  obtain ⟨hcontent, hinside⟩ := served_content countServer (by decide) countWhole_answered x
  obtain ⟨p, hp, heq, -⟩ := hcontent (hinside hx)
  refine ⟨p, hp, ?_⟩
  rw [heq, htrace]
  rfl

/-- **The answers of the stream, against the test server**, in the runs in
which every `curl_multi_wait` and `curl_multi_perform` succeeds and every
seek, with `SL_SEEK_SET` where its offset is negative, finds nothing to
cancel or a chunk to abort at. The length is the content's or unknown, and
it is known, and the stream seekable, once a read has returned a byte. End
of file is never reported before the end of the content, and always at it
once a byte has been read. -/
theorem served_answers (server : TestServer) (hlen : server.contentLen < 2 ^ 63)
    {first : List CurlEvent} (hfirst : Answered server none first) {x : HttpSys}
    (h : (httpStream first).Reach (ServedBy server) x) :
    (slHttpLengthCb x.http = -1 ∨ slHttpLengthCb x.http = server.contentLen)
      ∧ (slHttpEofCb x.http = true → server.contentLen ≤ slHttpTellCb x.http)
      ∧ (bytesRead x.trace ≠ [] → slHttpLengthCb x.http = server.contentLen
        ∧ slHttpSeekableCb x.http = .supported
        ∧ (slHttpEofCb x.http = true ↔ server.contentLen ≤ slHttpTellCb x.http)) := by
  obtain ⟨p, -, hserving⟩ := serving_of_reach hlen hfirst h
  have hsound : x.http.httpLen = -1 ∨ x.http.httpLen = server.contentLen :=
    hserving.learns.sound.1
  have heof : slHttpEofCb x.http = true ↔ x.http.httpLen ≤ x.http.httpOff ∧ 0 ≤ x.http.httpLen := by
    simp [slHttpEofCb]
  refine ⟨hsound, fun h => ?_, fun hne => ?_⟩
  · obtain ⟨hle, hpos⟩ := heof.mp h
    rw [hsound.resolve_left (by omega)] at hle
    exact hle
  · obtain ⟨hlength, hrange⟩ := hserving.whole hne
    have hlength : x.http.httpLen = server.contentLen := hlength
    have hrange : x.http.httpRangeAllowed = .yes := hrange
    refine ⟨hlength, by rw [slHttpSeekableCb, hrange], ?_⟩
    rw [heof, hlength]
    exact ⟨fun h => h.1, fun h => ⟨h, Int.natCast_nonneg _⟩⟩

/-- After the short read at the end. -/
theorem served_answers_run :
    ∃ x : HttpSys, x.trace = [.read 1 [1] 1, .seek 2 slSeekSet 0 2, .read 5 [3] 3]
      ∧ slHttpLengthCb x.http = 3 ∧ slHttpSeekableCb x.http = .supported := by
  obtain ⟨x, hx, htrace⟩ := countServer_run
  have hserved := (reach_servedBy (by decide) countWhole_answered hx).1
  obtain ⟨-, -, hknown⟩ := served_answers countServer (by decide) countWhole_answered hserved
  obtain ⟨hlength, hseekable, -⟩ := hknown (by rw [htrace]; nofun)
  exact ⟨x, htrace, hlength, hseekable⟩

end Streamlike
