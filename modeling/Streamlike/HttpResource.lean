import Streamlike.HttpCalls
import Streamlike.HttpField

/-!
# The bytes of the resource

The offset is set by the seek, and the write callback counts on from there.
It looks at neither the status of the response nor at what was asked for,
so whether the bytes it copies are those of the resource at `http_off`
depends on the response: they are when every byte of it comes under 206, or
under 200 after a request from 0 on. A server that ignores the range, or
answers with an error and a body, is taken at its word.

`Request` is what the last request asked for and what was answered, a
history variable beside the run. `OnResource` is what a read keeps.
-/

namespace Streamlike

/-! ## Responses -/

/-- The server keeps to the resource `R` in a response to a request from
`offset` on: the body under status 200 is `R` from 0 on, that under 206 is
`R` from `offset` on. The status is that of the last status line, and `sent`
is the body so far. -/
def Serves (R : Bytes) (offset : Nat) : Option Int → Bytes → List CurlEvent → Prop
  | _, _, [] => True
  | status, sent, .header line :: events =>
      unsatisfiable line = true ∨ Serves R offset ((statusOf line).or status) sent events
  | status, sent, .chunk b :: events =>
      (status = some 200 → sent ++ b <+: R)
        ∧ (status = some 206 → sent ++ b <+: R.drop offset)
        ∧ Serves R offset status (sent ++ b) events

instance decServes (R : Bytes) (offset : Nat) :
    ∀ status sent events, Decidable (Serves R offset status sent events)
  | _, _, [] => .isTrue trivial
  | status, sent, .header line :: events =>
      have := decServes R offset ((statusOf line).or status) sent events
      inferInstanceAs (Decidable (_ ∨ _))
  | status, sent, .chunk b :: events =>
      have := decServes R offset status (sent ++ b) events
      inferInstanceAs (Decidable (_ ∧ _ ∧ _))

/-- Every byte of the body comes under 206, or under 200 when the request
was from 0 on. -/
def AsAsked (offset : Nat) : Option Int → List CurlEvent → Prop
  | _, [] => True
  | status, .header line :: events =>
      unsatisfiable line = true ∨ AsAsked offset ((statusOf line).or status) events
  | status, .chunk b :: events =>
      (b = [] ∨ status = some 206 ∨ status = some 200 ∧ offset = 0) ∧ AsAsked offset status events

instance decAsAsked (offset : Nat) : ∀ status events, Decidable (AsAsked offset status events)
  | _, [] => .isTrue trivial
  | status, .header line :: events =>
      have := decAsAsked offset ((statusOf line).or status) events
      inferInstanceAs (Decidable (_ ∨ _))
  | status, .chunk _ :: events =>
      have := decAsAsked offset status events
      inferInstanceAs (Decidable (_ ∧ _))

/-- The body of such a response is the resource from `offset` on. -/
theorem body_of_serves {R : Bytes} {offset : Nat} {events : List CurlEvent} {status : Option Int}
    {sent : Bytes} (hserves : Serves R offset status sent events)
    (hasked : AsAsked offset status events) (hsent : sent <+: R.drop offset) :
    sent ++ body events <+: R.drop offset := by
  induction events generalizing status sent with
  | nil => rwa [body, List.append_nil]
  | cons e events ih =>
      cases e with
      | header line =>
          rw [body]
          split
          · rwa [List.append_nil]
          · next hsat =>
            exact ih (hserves.resolve_left hsat) (hasked.resolve_left hsat) hsent
      | chunk b =>
          obtain ⟨hfull, hrange, hserves⟩ := hserves
          obtain ⟨hb, hasked⟩ := hasked
          rw [body, ← List.append_assoc]
          refine ih hserves hasked ?_
          rcases hb with rfl | hstatus | ⟨hstatus, rfl⟩
          · rwa [List.append_nil]
          · exact hrange hstatus
          · exact hfull hstatus

/-! ## A read -/

/-- Inside a read that began at the offset `start` of `R`: what has been
copied is `R` from there on, and what comes next goes on with it. -/
structure OnResource (R : Bytes) (start : Nat) (http : SlHttp) : Prop where
  fits : Fits http.curlbufOff http.curl.events
  tell : OffAt http.httpOff (start + http.outbufOff)
  copied : http.outbuf.read 0 http.outbufOff <+: R.drop start
  ahead : http.state ≠ .abortRequested →
    http.outbuf.read 0 http.outbufOff ++ (body http.curl.events).drop http.curlbufOff
      <+: R.drop start

/-- The copy of `n` bytes of the next chunk. -/
theorem OnResource.copy {R b : Bytes} {start : Nat} {http : SlHttp} {events : List CurlEvent}
    (hi : OnResource R start http) (hs : http.state ≠ .abortRequested)
    (he : http.curl.events = .chunk b :: events) {n : Nat} (hn : http.curlbufOff + n ≤ b.length) :
    (http.outbuf.write http.outbufOff ((b.drop http.curlbufOff).take n)).read 0
        (http.outbufOff + n) ++ (b.drop (http.curlbufOff + n) ++ body events) <+: R.drop start := by
  have hahead := hi.ahead hs
  rw [he, body] at hahead
  rwa [copy_append _ _ _ hn]

theorem OnResource.kept {R : Bytes} {start : Nat} : Kept (OnResource R start) where
  delivered {http http'} hi hd := by
    have hplaced := hi.fits.delivered hd
    have htell := hi.tell
    cases hd with
    | none h => exact hi
    | @header line events len status range hp he =>
        refine ⟨hplaced, hi.tell, hi.copied, fun hs => ?_⟩
        have hahead := hi.ahead hs
        rw [he, body] at hahead
        show _ ++ (body (if unsatisfiable line then [] else events)).drop http.curlbufOff <+: _
        split
        · next hu => rwa [if_pos hu] at hahead
        · next hu => rwa [if_neg hu] at hahead
    | abort hp he hs =>
        refine ⟨hplaced, hi.tell, hi.copied, fun _ => ?_⟩
        show _ ++ (body []).drop http.curlbufOff <+: _
        rw [body, List.drop_nil, List.append_nil]
        exact hi.copied
    | @take b events n hp he hs hn hlt =>
        have hfits := hi.fits.chunk he
        rw [sizeSub_of_le hfits] at hn
        have hcopy := hi.copy hs he (n := n) (by omega)
        have hrest : b.drop (http.curlbufOff + n) = [] := List.drop_eq_nil_of_le (by omega)
        rw [hrest, List.nil_append] at hcopy
        refine ⟨hplaced, ?_, (List.prefix_append _ _).trans hcopy, fun _ => hcopy⟩
        exact Nat.add_assoc start http.outbufOff n ▸ htell.add n
    | @fill b events n hp he hs hn hle =>
        have hfits := hi.fits.chunk he
        rw [sizeSub_of_le hfits] at hle
        have hcopy := hi.copy hs he (n := n) (by omega)
        refine ⟨hplaced, ?_, (List.prefix_append _ _).trans hcopy, fun _ => ?_⟩
        · exact Nat.add_assoc start http.outbufOff n ▸ htell.add n
        · rw [← List.drop_append_of_le_length (by omega), ← body, ← he] at hcopy
          exact hcopy
  ready hi hnil := by
    refine ⟨hi.fits, hi.tell, hi.copied, fun _ => ?_⟩
    show _ ++ (body _).drop _ <+: _
    rw [hnil, body, List.drop_nil, List.append_nil]
    exact hi.copied
  working hi hready := ⟨hi.fits, hi.tell, hi.copied, fun _ => hi.ahead (by simp [hready])⟩

/-! ## The write callback -/

/-- What the write callback copies of the chunk `b`. -/
def SlHttp.copied (http : SlHttp) (b : Bytes) : Bytes :=
  let http' := (slHttpWriteCb_ http b).2
  http'.outbuf.read http.outbufOff (http'.outbufOff - http.outbufOff)

theorem writeCb_outbufOff_le (http : SlHttp) (b : Bytes) :
    http.outbufOff ≤ (slHttpWriteCb_ http b).2.outbufOff := by
  unfold slHttpWriteCb_
  dsimp only
  split_ifs
  · exact le_rfl
  · exact Nat.le_add_right _ _
  · exact Nat.le_add_right _ _

/-- The transfer hands the next chunk to the write callback. -/
theorem deliverOne_chunk {http : SlHttp} {b : Bytes} {events : List CurlEvent}
    (hp : http.curl.paused = false) (he : http.curl.events = .chunk b :: events) :
    (deliverOne http).outbuf = (slHttpWriteCb_ http b).2.outbuf
      ∧ (deliverOne http).outbufOff = (slHttpWriteCb_ http b).2.outbufOff := by
  rw [deliverOne, if_neg (by rw [hp]; exact Bool.false_ne_true), he]
  dsimp only
  split <;> next heq => exact ⟨by rw [heq]; rfl, by rw [heq]; rfl⟩

/-- What is copied while `http_off` is `p` is `R` from `p` on. -/
theorem OnResource.callback {R b : Bytes} {start : Nat} {http : SlHttp} {events : List CurlEvent}
    (hi : OnResource R start http) (hp : http.curl.paused = false)
    (he : http.curl.events = .chunk b :: events) :
    ∃ p : Nat, OffAt http.httpOff p ∧ http.copied b <+: R.drop p := by
  have hi' := OnResource.kept.delivered hi (deliverOne_cases http)
  obtain ⟨houtbuf, hoff⟩ := deliverOne_chunk hp he
  have hcopied := hi'.copied
  have hle := writeCb_outbufOff_le http b
  rw [houtbuf, hoff, ← Nat.add_sub_of_le hle, ByteMem.read_add, Nat.zero_add] at hcopied
  refine ⟨start + http.outbufOff, hi.tell, ?_⟩
  obtain ⟨rest, hrest⟩ := hcopied
  refine ⟨rest, ?_⟩
  rw [SlHttp.copied, ← List.drop_drop, ← hrest, List.append_assoc, List.drop_left']
  exact ByteMem.length_read _ _ _

/-! ## Between calls -/

/-- What comes next is `R` from `http_off` on, or is to be discarded. -/
def Aligned (R : Bytes) (http : SlHttp) : Prop :=
  ∃ p : Nat, OffAt http.httpOff p
    ∧ (http.state ≠ .abortRequested → (body http.curl.events).drop http.curlbufOff <+: R.drop p)

theorem Aligned.begin {R : Bytes} {http : SlHttp} (h : Aligned R http) (hsound : HttpSound http)
    (buffer : ByteMem UInt8) (len : Nat) :
    ∃ start, OnResource R start (http.begin buffer len) := by
  obtain ⟨p, hp, hahead⟩ := h
  exact ⟨p, hsound.fits, hp, List.nil_prefix, hahead⟩

theorem OnResource.aligned {R : Bytes} {start : Nat} {http : SlHttp}
    (hi : OnResource R start http) : Aligned R http := by
  refine ⟨start + http.outbufOff, hi.tell, fun hs => ?_⟩
  obtain ⟨rest, hrest⟩ := hi.ahead hs
  refine ⟨rest, ?_⟩
  rw [← List.drop_drop, ← hrest, List.append_assoc, List.drop_left']
  exact ByteMem.length_read _ _ _

/-! ## Runs -/

/-- The last request: the offset it asked for, and the response to it. -/
structure Request where
  offset : Nat
  response : List CurlEvent

/-- The server keeps to the resource `R`. -/
def Request.Honest (R : Bytes) (r : Request) : Prop := Serves R r.offset none [] r.response

/-- All of the body comes under 206, or under 200 to a request from 0 on. -/
def Request.AsAsked (r : Request) : Prop := Streamlike.AsAsked r.offset none r.response

instance (R : Bytes) (r : Request) : Decidable (r.Honest R) :=
  inferInstanceAs (Decidable (Serves R r.offset none [] r.response))

instance (r : Request) : Decidable r.AsAsked :=
  inferInstanceAs (Decidable (Streamlike.AsAsked r.offset none r.response))

/-- A seek that is not refused makes a request. -/
def request : HttpCall → HttpSys → Request → Request
  | .read .., _, r => r
  | .seek offset _ _ _ next, _, r => if offset < 0 then r else ⟨offset.toNat, next⟩

/-- The stream with its last request, the first of which is for the whole
resource. -/
def requests (first : List CurlEvent) : Lts (HttpSys × Request) HttpCall :=
  (httpStream first).watched ⟨0, first⟩ request

/-- Reads and `SL_SEEK_SET` seeks, answered by a server that keeps to the
resource `R`. -/
def HonestServer (R : Bytes) (_ : HttpSys × Request) : HttpCall → Prop
  | .read .. => True
  | .seek offset whence _ _ next =>
      whence = slSeekSet ∧ (0 ≤ offset → Request.Honest R ⟨offset.toNat, next⟩)

/-- The same, and every read is of a response that is as it was asked for. -/
def ReadsAsAsked (R : Bytes) (x : HttpSys × Request) (a : HttpCall) : Prop :=
  HonestServer R x a ∧ ∀ buffer len cont polls, a = .read buffer len cont polls → x.2.AsAsked

/-- Every read has returned bytes of the resource `R`, from the offset on
that was `tell` when it began. -/
def HttpSys.OfResource (R : Bytes) (x : HttpSys) : Prop :=
  ∀ len bytes tell, .read len bytes tell ∈ x.trace →
    ∃ p : Nat, OffAt tell (p + bytes.length) ∧ bytes <+: R.drop p

/-- Wherever a read leads, what the write callback copies while `http_off`
is `p` is `R` from `p` on. -/
def HttpSys.Copies (R : Bytes) (x : HttpSys) : Prop :=
  ∀ buffer len http b events, InRead (x.http.begin buffer len) http → http.curl.paused = false →
    http.curl.events = .chunk b :: events →
    ∃ p : Nat, OffAt http.httpOff p ∧ http.copied b <+: R.drop p

variable {R : Bytes} {first : List CurlEvent}

/-- In every run, between calls. -/
structure RequestsInv (R : Bytes) (x : HttpSys × Request) : Prop where
  sound : HttpSound x.1.http
  aligned : x.2.AsAsked → Aligned R x.1.http
  ofResource : x.1.OfResource R

theorem HttpSys.OfResource.snoc {x : HttpSys} (hx : x.OfResource R) (http : SlHttp)
    {e : HttpEvent}
    (he : ∀ len bytes tell, e = .read len bytes tell →
      ∃ p : Nat, OffAt tell (p + bytes.length) ∧ bytes <+: R.drop p) :
    HttpSys.OfResource R ⟨http, x.trace ++ [e]⟩ := by
  intro len bytes tell h
  rcases List.mem_append.mp h with h | h
  · exact hx len bytes tell h
  · exact he len bytes tell (List.mem_singleton.mp h).symm

theorem requestsInv_init (hfirst : Request.Honest R ⟨0, first⟩) {x : HttpSys × Request}
    (hx : (requests first).init x) : RequestsInv R x := by
  obtain ⟨sys, r⟩ := x
  obtain ⟨⟨mem, rfl⟩, rfl⟩ := hx
  refine ⟨⟨.zero _, nofun⟩, fun hasked => ⟨0, .self 0, fun _ => ?_⟩, nofun⟩
  exact body_of_serves hfirst hasked List.nil_prefix

theorem RequestsInv.step {x x' : HttpSys × Request} {a : HttpCall} (hi : RequestsInv R x)
    (ha : ReadsAsAsked R x a) (hs : (requests first).step a x = some x') : RequestsInv R x' := by
  obtain ⟨sys, r⟩ := x
  obtain ⟨sys', hs', rfl⟩ := Option.map_eq_some_iff.mp hs
  cases a with
  | read buffer len cont polls =>
      obtain ⟨⟨n, http'⟩, hread, rfl⟩ := Option.map_eq_some_iff.mp hs'
      obtain ⟨start, hbegin⟩ :=
        (hi.aligned (ha.2 _ _ _ _ rfl)).begin hi.sound buffer len
      obtain ⟨⟨hsound, hon⟩, rfl⟩ := slHttpReadCb_kept (HttpSound.kept.and OnResource.kept)
        hi.sound ⟨hi.sound.begin buffer len, hbegin⟩ hread
      refine ⟨hsound, fun _ => hon.aligned, hi.ofResource.snoc _ ?_⟩
      rintro _ _ _ ⟨⟩
      exact ⟨start, by rw [ByteMem.length_read]; exact hon.tell, hon.copied⟩
  | seek offset whence cont polls next =>
      obtain ⟨⟨code, http'⟩, hseek, rfl⟩ := Option.map_eq_some_iff.mp hs'
      obtain ⟨rfl, hhonest⟩ := ha.1
      have htrace := hi.ofResource.snoc http'
        (e := .seek offset slSeekSet code (slHttpTellCb http')) fun _ _ _ h => by cases h
      have hsound := hi.sound.seek hseek
      rcases slHttpSeekCb_cases hseek with ⟨hneg, -, -, rfl⟩ | ⟨hpos, -, http₁, -, rfl⟩
      · refine ⟨hsound, ?_, htrace⟩
        show Request.AsAsked (if offset < 0 then r else _) → _
        rw [if_pos hneg]
        exact hi.aligned
      · have hpos : 0 ≤ offset := by
          by_contra hneg
          exact hpos ⟨by omega, rfl⟩
        refine ⟨hsound, ?_, htrace⟩
        show Request.AsAsked (if offset < 0 then r else _) → _
        rw [if_neg (by omega)]
        refine fun hasked => ⟨offset.toNat, .of_nonneg hpos, fun _ => ?_⟩
        show (body next).drop 0 <+: _
        rw [List.drop_zero]
        exact body_of_serves (hhonest hpos) hasked List.nil_prefix

/-- **What is read is the resource at the offset told**, in every run in
which every read is of a response that came as it was asked for, all of its
body under 206 or, to a request from 0 on, under 200. -/
theorem reads_of_resource {R : Bytes} {first : List CurlEvent}
    (hfirst : Request.Honest R ⟨0, first⟩) {x : HttpSys × Request}
    (h : (requests first).Reach (ReadsAsAsked R) x) :
    x.1.OfResource R ∧ (x.2.AsAsked → x.1.Copies R) := by
  have hi : RequestsInv R x :=
    h.invariant (fun _ hx => requestsInv_init hfirst hx) fun _ _ _ _ hi ha hs => hi.step ha hs
  refine ⟨hi.ofResource, fun hasked buffer len http b events hin hp he => ?_⟩
  obtain ⟨start, hbegin⟩ := (hi.aligned hasked).begin hi.sound buffer len
  exact (hin.keeps OnResource.kept hbegin).callback hp he

/-- A status line. -/
def statusLine (code : Bytes) : Bytes := httpLit ++ [49, 46, 49, 32] ++ code ++ [13, 10]

/-- A read of the whole resource, and one after a seek that is answered
with 206. -/
theorem reads_of_resource_run :
    ∃ x : HttpSys × Request,
      x.1.trace = [.read 1 [1] 1, .seek 2 slSeekSet 0 2, .read 1 [3] 3]
        ∧ x.1.OfResource [1, 2, 3] := by
  let R : Bytes := [1, 2, 3]
  let one : Poll := ⟨true, 2, true⟩
  let first : List CurlEvent := [.header (statusLine [50, 48, 48]), .chunk R]
  let next : List CurlEvent := [.header (statusLine [50, 48, 54]), .chunk [3]]
  let start : SlHttp :=
    slHttpOpen ⟨0, 0, 0, .unknown, ⟨none, [], false, []⟩, 0, 0, 0, fun _ => 0, .ready⟩ first
  let read : HttpCall := .read (fun _ => 0) 1 1 [one]
  let seek : HttpCall := .seek 2 slSeekSet 1 [one] next
  have hrun : ((requests first).run [read, seek, read] (⟨start, []⟩, ⟨0, first⟩)).map (·.1.trace)
      = some [.read 1 [1] 1, .seek 2 slSeekSet 0 2, .read 1 [3] 3] := by decide +kernel
  obtain ⟨x, hx, htrace⟩ := Option.map_eq_some_iff.mp hrun
  have hreach : (requests first).Reach (ReadsAsAsked R) x := by
    refine .runOn (P := fun x => x.2.AsAsked) (fun a ha s hs => ?_) (fun a ha s s' hs h => ?_)
      (.init ⟨⟨_, rfl⟩, rfl⟩) (by decide +kernel) hx
    · obtain rfl | rfl | rfl := by simpa only [List.mem_cons, List.not_mem_nil, or_false] using ha
      · exact ⟨True.intro, fun _ _ _ _ _ => hs⟩
      · refine ⟨⟨rfl, fun _ => by decide +kernel⟩, fun _ _ _ _ h => ?_⟩
        simp [seek] at h
      · exact ⟨True.intro, fun _ _ _ _ _ => hs⟩
    · obtain ⟨sys, -, rfl⟩ := Option.map_eq_some_iff.mp h
      obtain rfl | rfl | rfl := by simpa only [List.mem_cons, List.not_mem_nil, or_false] using ha
      · exact hs
      · show Request.AsAsked ⟨2, next⟩
        decide +kernel
      · exact hs
  exact ⟨x, htrace, (reads_of_resource (by decide +kernel) hreach).1⟩

/-- A server that ignores the range: after a seek to 1, a read returns the
bytes at 0. And the body of a 404 is returned as the resource's. -/
theorem reads_not_of_resource :
    ∃ x : HttpSys × Request,
      (requests [.header (statusLine [50, 48, 48]), .chunk [1, 2, 3]]).Reach
          (HonestServer [1, 2, 3]) x
        ∧ x.1.trace = [.seek 1 slSeekSet 0 1, .read 2 [1, 2] 3, .seek 0 slSeekSet 0 0,
            .read 1 [9] 1]
        ∧ ¬ x.1.OfResource [1, 2, 3] := by
  let R : Bytes := [1, 2, 3]
  let one : Poll := ⟨true, 2, true⟩
  let first : List CurlEvent := [.header (statusLine [50, 48, 48]), .chunk R]
  let missing : List CurlEvent := [.header (statusLine [52, 48, 52]), .chunk [9]]
  let start : SlHttp :=
    slHttpOpen ⟨0, 0, 0, .unknown, ⟨none, [], false, []⟩, 0, 0, 0, fun _ => 0, .ready⟩ first
  let calls : List HttpCall :=
    [.seek 1 slSeekSet 1 [one] first, .read (fun _ => 0) 2 1 [one],
      .seek 0 slSeekSet 1 [one] missing, .read (fun _ => 0) 1 1 [one]]
  have hrun : ((requests first).run calls (⟨start, []⟩, ⟨0, first⟩)).map (·.1.trace)
      = some [.seek 1 slSeekSet 0 1, .read 2 [1, 2] 3, .seek 0 slSeekSet 0 0, .read 1 [9] 1] := by
    decide +kernel
  obtain ⟨x, hx, htrace⟩ := Option.map_eq_some_iff.mp hrun
  refine ⟨x, .run (fun a ha s => ?_) (.init ⟨⟨_, rfl⟩, rfl⟩) hx, htrace, fun hof => ?_⟩
  · obtain rfl | rfl | rfl | rfl := by simpa [calls] using ha
    · exact ⟨rfl, fun _ => by decide +kernel⟩
    · trivial
    · exact ⟨rfl, fun _ => by decide +kernel⟩
    · trivial
  · obtain ⟨p, hp, hbytes⟩ := hof 2 [1, 2] 3 (by rw [htrace]; simp)
    obtain rfl | hbeyond : p = 1 ∨ 3 ≤ p := by
      have heq : p + 2 < 2 ^ 63 → (3 : Int) = (p + 2 : Nat) := hp.eq
      omega
    · exact absurd hbytes (by decide)
    · rw [List.drop_eq_nil_of_le (by exact hbeyond)] at hbytes
      exact absurd hbytes (by decide)

end Streamlike
