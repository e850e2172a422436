import Streamlike.Http

/-!
# Reads deliver the body once

Pausing and resuming loses nothing and repeats nothing: what the reads have
returned, followed by what the transfer has still to deliver from
`curlbuf_off` on, is the body at all times (`Fed`). The position in a chunk
that is used in part survives in `curlbuf_off` until the chunk is presented
again.

`Delivered` says what one event does, and the invariants are read off it.
`Kept` are the properties that the loop of a read keeps; `HttpInv` is the
one that holds under every run.
-/

namespace Streamlike

/-! ## One event -/

/-- What the next event does to the context. -/
inductive Delivered (http : SlHttp) : SlHttp → Prop
  | none : http.curl.paused = true ∨ http.curl.events = [] → Delivered http http
  | header {line : Bytes} {events : List CurlEvent} (len status : Int) (range : RangeAllowed) :
      http.curl.paused = false → http.curl.events = .header line :: events →
      Delivered http { http with
        httpLen := len
        httpStatus := status
        httpRangeAllowed := range
        curl := { http.curl with events := if unsatisfiable line then [] else events } }
  | abort {b : Bytes} {events : List CurlEvent} :
      http.curl.paused = false → http.curl.events = .chunk b :: events →
      http.state = .abortRequested →
      Delivered http { http with
        state := .aborted
        curl := { http.curl with
          events := []
          presented := http.curl.presented ++ [(http.curlbufOff, b.length)] } }
  | take {b : Bytes} {events : List CurlEvent} {n : Nat} :
      http.curl.paused = false → http.curl.events = .chunk b :: events →
      http.state ≠ .abortRequested → n = sizeSub b.length http.curlbufOff →
      n < sizeSub http.outbufSize http.outbufOff →
      Delivered http { http with
        outbuf := http.outbuf.write http.outbufOff ((b.drop http.curlbufOff).take n)
        outbufOff := http.outbufOff + n
        curlbufOff := 0
        httpOff := offAdd http.httpOff n
        curl := { http.curl with
          events
          presented := http.curl.presented ++ [(http.curlbufOff, b.length)] } }
  | fill {b : Bytes} {events : List CurlEvent} {n : Nat} :
      http.curl.paused = false → http.curl.events = .chunk b :: events →
      http.state ≠ .abortRequested → n = sizeSub http.outbufSize http.outbufOff →
      n ≤ sizeSub b.length http.curlbufOff →
      Delivered http { http with
        outbuf := http.outbuf.write http.outbufOff ((b.drop http.curlbufOff).take n)
        outbufOff := http.outbufOff + n
        curlbufOff := http.curlbufOff + n
        httpOff := offAdd http.httpOff n
        state := .paused
        curl := { http.curl with
          paused := true
          presented := http.curl.presented ++ [(http.curlbufOff, b.length)] } }

/-- A header line is learnt from, and ends the transfer when it is not
taken in full. -/
theorem deliverOne_header {http : SlHttp} {line : Bytes} {events : List CurlEvent}
    (hp : http.curl.paused = false) (he : http.curl.events = .header line :: events) :
    deliverOne http = (slHttpHeaderCb_ http line).2.setEvents
      (if unsatisfiable line then [] else events) := by
  have hret := headerCb_ret http line
  have htaken : (if (slHttpHeaderCb_ http line).1 = line.length then events else [])
      = if unsatisfiable line then [] else events := by
    cases hu : unsatisfiable line with
    | false => rw [if_pos (hret.mpr hu)]; rfl
    | true => rw [if_neg fun h => by simp [hret.mp h] at hu]; rfl
  rw [deliverOne, if_neg (by rw [hp]; exact Bool.false_ne_true), he, ← htaken]

theorem deliverOne_cases (http : SlHttp) : Delivered http (deliverOne http) := by
  cases hp : http.curl.paused with
  | true =>
      rw [deliverOne, if_pos hp]
      exact .none (.inl hp)
  | false =>
  cases he : http.curl.events with
  | nil =>
      rw [deliverOne, if_neg (by rw [hp]; exact Bool.false_ne_true), he]
      exact .none (.inr he)
  | cons e events =>
  cases e with
  | header line =>
      obtain ⟨len, status, range, hlearnt⟩ := headerCb_frame http line
      rw [deliverOne_header hp he, hlearnt]
      exact .header len status range hp he
  | chunk b =>
      rw [deliverOne, if_neg (by rw [hp]; exact Bool.false_ne_true), he]
      dsimp only
      rw [slHttpWriteCb_]
      dsimp only
      by_cases hstate : http.state = .abortRequested
      · rw [if_pos hstate]
        exact .abort hp he hstate
      · rw [if_neg hstate]
        by_cases hroom : sizeSub b.length http.curlbufOff
            < sizeSub http.outbufSize http.outbufOff
        · rw [if_pos hroom]
          exact .take hp he hstate rfl hroom
        · rw [if_neg hroom]
          exact .fill hp he hstate rfl (not_lt.mp hroom)

/-- What one event keeps, the transfer keeps. -/
theorem deliver_keeps {I : SlHttp → Prop}
    (hone : ∀ {http http'}, I http → Delivered http http' → I http') (n : Nat) {http : SlHttp}
    (hi : I http) : I (deliver n http) := by
  induction n generalizing http with
  | zero => exact hi
  | succ n ih => exact ih (hone hi (deliverOne_cases http))

/-- Nothing is delivered to a paused transfer, or by one that is over. -/
theorem Delivered.stuck {http http' : SlHttp} (hd : Delivered http http')
    (h : http.curl.paused = true ∨ http.curl.events = []) : http' = http := by
  have hno {e : CurlEvent} {events : List CurlEvent} (hp : http.curl.paused = false)
      (he : http.curl.events = e :: events) : False := by
    rcases h with h | h
    · exact Bool.false_ne_true (hp.symm.trans h)
    · rw [h] at he
      cases he
  cases hd with
  | none => rfl
  | header _ _ _ hp he => exact (hno hp he).elim
  | abort hp he => exact (hno hp he).elim
  | take hp he => exact (hno hp he).elim
  | fill hp he => exact (hno hp he).elim

theorem deliver_done {http : SlHttp} (h : http.curl.events = []) (n : Nat) :
    deliver n http = http :=
  deliver_keeps (I := fun http' => http' = http)
    (by rintro _ _ rfl hd; exact hd.stuck (.inr h)) n rfl

/-! ## The body and the positions -/

/-- The bytes that the transfer delivers, to its end or to the header line
that ends it. -/
def body : List CurlEvent → Bytes
  | [] => []
  | .header line :: events => if unsatisfiable line then [] else body events
  | .chunk b :: events => b ++ body events

/-- The body is the chunks one after the other. -/
theorem body_chunks (chunks : List Bytes) : body (chunks.map .chunk) = chunks.flatten := by
  induction chunks with
  | nil => rfl
  | cons b chunks ih => rw [List.map_cons, body, ih, List.flatten_cons]

/-- `curlbuf_off` is a position in the chunk that comes next, and 0 before a
header line. -/
def Fits (off : Nat) : List CurlEvent → Prop
  | [] => True
  | .header _ :: _ => off = 0
  | .chunk b :: _ => off ≤ b.length

theorem Fits.zero (events : List CurlEvent) : Fits 0 events := by
  cases events with
  | nil => trivial
  | cons e events =>
      cases e with
      | header line => rfl
      | chunk b => exact Nat.zero_le _

theorem Fits.chunk {off : Nat} {events : List CurlEvent} {b : Bytes} {rest : List CurlEvent}
    (h : Fits off events) (he : events = .chunk b :: rest) : off ≤ b.length := by
  rwa [he] at h

theorem Fits.header {off : Nat} {events : List CurlEvent} {line : Bytes} {rest : List CurlEvent}
    (h : Fits off events) (he : events = .header line :: rest) : off = 0 := by
  rwa [he] at h

theorem sizeSub_of_le {a b : Nat} (h : b ≤ a) : sizeSub a b = a - b := if_pos h

/-- `curlbuf_off` fits what comes next, and fitted each chunk presented. -/
structure Placed (http : SlHttp) : Prop where
  fits : Fits http.curlbufOff http.curl.events
  presented : ∀ p ∈ http.curl.presented, p.1 ≤ p.2

theorem Placed.present {http : SlHttp} (hi : Placed http) {b : Bytes} {events : List CurlEvent}
    (he : http.curl.events = .chunk b :: events) :
    ∀ p ∈ http.curl.presented ++ [(http.curlbufOff, b.length)], p.1 ≤ p.2 := by
  intro p hp
  rcases List.mem_append.mp hp with hp | hp
  · exact hi.presented p hp
  · obtain rfl := List.mem_singleton.mp hp
    exact hi.fits.chunk he

theorem Fits.delivered {http http' : SlHttp} (hi : Fits http.curlbufOff http.curl.events)
    (hd : Delivered http http') : Fits http'.curlbufOff http'.curl.events := by
  cases hd with
  | none h => exact hi
  | header len status range hp he =>
      show Fits http.curlbufOff _
      rw [hi.header he]
      exact .zero _
  | abort hp he hs => trivial
  | take hp he hs hn hlt => exact .zero _
  | @fill b events n hp he hs hn hle =>
      have hfits := hi.chunk he
      rw [sizeSub_of_le hfits] at hle
      show Fits (http.curlbufOff + n) http.curl.events
      rw [he]
      show http.curlbufOff + n ≤ b.length
      omega

theorem Placed.delivered {http http' : SlHttp} (hi : Placed http) (hd : Delivered http http') :
    Placed http' := by
  refine ⟨hi.fits.delivered hd, ?_⟩
  cases hd with
  | none h => exact hi.presented
  | header len status range hp he => exact hi.presented
  | abort hp he hs => exact hi.present he
  | take hp he hs hn hlt => exact hi.present he
  | fill hp he hs hn hle => exact hi.present he

/-- The transfer has a chunk to deliver next. -/
def ChunkNext (events : List CurlEvent) : Prop := ∃ b rest, events = .chunk b :: rest

/-- Inside a read call, in every run: a paused transfer has filled `outbuf`,
and will present a chunk again. -/
structure HttpInv (http : SlHttp) : Prop extends Placed http where
  room : http.outbufOff ≤ http.outbufSize
  paused : http.curl.paused = true → http.outbufOff = http.outbufSize ∧ http.state = .paused
  chunk : http.state = .paused → http.outbufOff = http.outbufSize → ChunkNext http.curl.events

theorem HttpInv.delivered {http http' : SlHttp} (hi : HttpInv http) (hd : Delivered http http') :
    HttpInv http' := by
  have hplaced := hi.toPlaced.delivered hd
  have hroom := hi.room
  have hoff := sizeSub_of_le hroom
  cases hd with
  | none h => exact hi
  | header len status range hp he =>
      refine ⟨hplaced, hroom, fun h => absurd (hp.symm.trans h) Bool.false_ne_true,
        fun hs hf => ?_⟩
      obtain ⟨b, rest, hb⟩ := hi.chunk hs hf
      rw [he] at hb
      cases hb
  | abort hp he hs =>
      exact ⟨hplaced, hroom, fun h => absurd (hp.symm.trans h) Bool.false_ne_true, nofun⟩
  | @take b events n hp he hs hn hlt =>
      rw [hoff] at hlt
      have hlt : http.outbufOff + n < http.outbufSize := by omega
      exact ⟨hplaced, hlt.le, fun h => absurd (hp.symm.trans h) Bool.false_ne_true,
        fun _ hf => absurd hf hlt.ne⟩
  | @fill b events n hp he hs hn hle =>
      have hfull : http.outbufOff + n = http.outbufSize := by omega
      exact ⟨hplaced, hfull.le, fun _ => ⟨hfull, rfl⟩, fun _ _ => ⟨b, events, he⟩⟩

/-! ## The bytes -/

/-- The offset `off` is the position `p` as an `off_t`: `p` below `2 ^ 63`,
and the same number modulo `2 ^ 64` in any case. -/
structure OffAt (off : Int) (p : Nat) : Prop where
  eq : p < 2 ^ 63 → off = p
  wraps : off.bmod (2 ^ 64) = (p : Int).bmod (2 ^ 64)

theorem OffAt.self (p : Nat) : OffAt p p := ⟨fun _ => rfl, rfl⟩

theorem OffAt.of_nonneg {off : Int} (h : 0 ≤ off) : OffAt off off.toNat := by
  have hself := OffAt.self off.toNat
  rwa [Int.toNat_of_nonneg h] at hself

theorem OffAt.add {off : Int} {p : Nat} (h : OffAt off p) (n : Nat) :
    OffAt (offAdd off n) (p + n) := by
  constructor
  · intro hlt
    have hoff := h.eq (by omega)
    rw [offAdd_eq (by omega) (by omega), hoff, Int.natCast_add]
  · have hsum : (off + n).bmod (2 ^ 64) = ((p + n : Nat) : Int).bmod (2 ^ 64) := by
      rw [← Int.bmod_add_bmod, h.wraps, Int.bmod_add_bmod, Int.natCast_add]
    unfold offAdd
    split
    · next hn =>
      rw [hn, Int.natCast_zero, Int.add_zero] at hsum
      rw [hsum, hn]
    · rw [Int.bmod_bmod, hsum]

/-- Of the body `B`, which begins at the offset `base`, `got` has been
copied out. -/
structure Fed (B : Bytes) (base : Int) (got : Bytes) (http : SlHttp) : Prop where
  bytes : got ++ (body http.curl.events).drop http.curlbufOff = B
  tell : http.httpOff = offAdd base got.length
  state : http.state ≠ .abortRequested

/-- The offset of a body that begins at 0. -/
theorem Fed.offAt {B got : Bytes} {http : SlHttp} (h : Fed B 0 got http) :
    OffAt http.httpOff got.length := by
  have hadd := (OffAt.self 0).add got.length
  rw [h.tell]
  rwa [Nat.zero_add] at hadd

/-- Inside a read call, when `before` has been returned by the calls before
it. -/
def Feeding (B : Bytes) (base : Int) (before : Bytes) (http : SlHttp) : Prop :=
  HttpInv http ∧ Fed B base (before ++ http.outbuf.read 0 http.outbufOff) http

/-- The copy of `n` bytes of a chunk from `off` on: what has been copied,
followed by what comes next, is what it was. -/
theorem copy_append (m : ByteMem UInt8) (outbuf_off : Nat) {b : Bytes} (rest : Bytes) {off n : Nat}
    (hn : off + n ≤ b.length) :
    (m.write outbuf_off ((b.drop off).take n)).read 0 (outbuf_off + n)
        ++ (b.drop (off + n) ++ rest)
      = m.read 0 outbuf_off ++ (b ++ rest).drop off := by
  have hlen : ((b.drop off).take n).length = n := by
    rw [List.length_take, List.length_drop]
    omega
  have hread := ByteMem.read_write_append m outbuf_off ((b.drop off).take n)
  rw [hlen] at hread
  rw [hread, List.drop_append_of_le_length (by omega), ← List.drop_drop]
  simp only [List.append_assoc, List.append_cancel_left_eq]
  rw [← List.append_assoc, List.take_append_drop]

theorem Feeding.copy {B before b : Bytes} {base : Int} {http : SlHttp}
    {events : List CurlEvent} (hi : Feeding B base before http)
    (he : http.curl.events = .chunk b :: events) {n : Nat} (hn : n ≤ b.length - http.curlbufOff) :
    (before ++ (http.outbuf.write http.outbufOff ((b.drop http.curlbufOff).take n)).read 0
        (http.outbufOff + n)) ++ (b.drop (http.curlbufOff + n) ++ body events) = B := by
  have hfits := hi.1.fits.chunk he
  have hbytes := hi.2.bytes
  rw [he, body] at hbytes
  rw [List.append_assoc, copy_append _ _ _ (by omega), ← List.append_assoc, hbytes]

theorem Feeding.delivered {B before : Bytes} {base : Int} {http http' : SlHttp}
    (hi : Feeding B base before http) (hd : Delivered http http') :
    Feeding B base before http' := by
  refine ⟨hi.1.delivered hd, ?_⟩
  have hfed := hi.2
  have htell := hfed.tell
  rw [List.length_append, ByteMem.length_read] at htell
  cases hd with
  | none h => exact hfed
  | header len status range hp he =>
      refine ⟨?_, hfed.tell, hfed.state⟩
      rw [← hfed.bytes, he, body]
      show _ ++ (body (if unsatisfiable _ then [] else _)).drop http.curlbufOff = _
      split <;> rfl
  | abort hp he hs => exact absurd hs hfed.state
  | @take b events n hp he hs hn hlt =>
      have hfits := hi.1.fits.chunk he
      rw [sizeSub_of_le hfits] at hn
      refine ⟨?_, ?_, hs⟩
      · have hcopy := hi.copy he hn.le
        have hrest : b.drop (http.curlbufOff + n) = [] := List.drop_eq_nil_of_le (by omega)
        rwa [hrest, List.nil_append] at hcopy
      · show offAdd http.httpOff n
          = offAdd base (before ++ ByteMem.read _ 0 (http.outbufOff + n)).length
        rw [List.length_append, ByteMem.length_read, htell, offAdd_offAdd, Nat.add_assoc]
  | @fill b events n hp he hs hn hle =>
      have hfits := hi.1.fits.chunk he
      rw [sizeSub_of_le hfits] at hle
      refine ⟨?_, ?_, nofun⟩
      · have hcopy := hi.copy he hle
        rw [← List.drop_append_of_le_length (by omega), ← body, ← he] at hcopy
        exact hcopy
      · show offAdd http.httpOff n
          = offAdd base (before ++ ByteMem.read _ 0 (http.outbufOff + n)).length
        rw [List.length_append, ByteMem.length_read, htell, offAdd_offAdd, Nat.add_assoc]

/-! ## The loop of a read -/

/-- A property that the loop of a read keeps. -/
structure Kept (I : SlHttp → Prop) : Prop where
  delivered : ∀ {http http'}, I http → Delivered http http' → I http'
  ready : ∀ {http}, I http → http.curl.events = [] → I { http with state := .ready }
  working : ∀ {http}, I http → http.state = .ready → I { http with state := .working }

theorem HttpInv.kept : Kept HttpInv where
  delivered := HttpInv.delivered
  ready hi hnil := by
    refine ⟨⟨hi.fits, hi.presented⟩, hi.room, fun hp => ?_, nofun⟩
    obtain ⟨hfull, hs⟩ := hi.paused hp
    obtain ⟨b, rest, he⟩ := hi.chunk hs hfull
    rw [hnil] at he
    cases he
  working hi hready := by
    refine ⟨⟨hi.fits, hi.presented⟩, hi.room, fun hp => ?_, nofun⟩
    have hs := (hi.paused hp).2
    rw [hready] at hs
    cases hs

theorem Feeding.kept {B before : Bytes} {base : Int} : Kept (Feeding B base before) where
  delivered := Feeding.delivered
  ready hi hnil := ⟨HttpInv.kept.ready hi.1 hnil, hi.2.bytes, hi.2.tell, nofun⟩
  working hi hready := ⟨HttpInv.kept.working hi.1 hready, hi.2.bytes, hi.2.tell, nofun⟩

theorem Kept.outbufSize (len : Nat) : Kept fun http => http.outbufSize = len where
  delivered hi hd := by cases hd <;> exact hi
  ready hi _ := hi
  working hi _ := hi

theorem Kept.and {I J : SlHttp → Prop} (hI : Kept I) (hJ : Kept J) :
    Kept fun http => I http ∧ J http where
  delivered hi hd := ⟨hI.delivered hi.1 hd, hJ.delivered hi.2 hd⟩
  ready hi hnil := ⟨hI.ready hi.1 hnil, hJ.ready hi.2 hnil⟩
  working hi hready := ⟨hI.working hi.1 hready, hJ.working hi.2 hready⟩

/-- `curl_multi_wait` and `curl_multi_perform` succeed. -/
def Poll.Ok (poll : Poll) : Prop := poll.wait = true ∧ poll.perform = true

theorem readLoop_full {http : SlHttp} (h : http.outbufSize ≤ http.outbufOff) (polls : List Poll) :
    readLoop polls http = some (http.outbufOff, http) := by
  rw [readLoop.eq_def, if_neg (not_lt.mpr h)]

/-- A round: it ends the call when `curl_multi_wait` or
`curl_multi_perform` fails, and when the transfer is over. -/
theorem readLoop_round {http : SlHttp} (h : http.outbufOff < http.outbufSize) (poll : Poll)
    (polls : List Poll) :
    readLoop (poll :: polls) http =
      if poll.wait = false then some (http.outbufOff, http)
      else
        let http := deliver poll.events http
        if http.curl.events = [] then some (http.outbufOff, { http with state := .ready })
        else if poll.perform = false then some (http.outbufOff, http)
        else
          readLoop polls
            (if http.state = .ready then { http with state := .working } else http) := by
  rw [readLoop, if_pos h]
  dsimp only [multiPerform]
  cases poll.wait <;> cases poll.perform <;>
    cases (deliver poll.events http).curl.events <;> simp

/-- A round in which both succeed. -/
theorem readLoop_poll {http : SlHttp} (h : http.outbufOff < http.outbufSize) {poll : Poll}
    (hok : poll.Ok) (polls : List Poll) :
    readLoop (poll :: polls) http =
      let http := deliver poll.events http
      if http.curl.events = [] then some (http.outbufOff, { http with state := .ready })
      else
        readLoop polls (if http.state = .ready then { http with state := .working } else http) := by
  obtain ⟨hwait, hperform⟩ := hok
  rw [readLoop_round h, hwait, hperform]
  rfl

/-- The loop ends with `outbuf` full or with the transfer, or else libcurl
has reported an error. -/
theorem readLoop_kept {I : SlHttp → Prop} (hI : Kept I) {polls : List Poll}
    {http http' : SlHttp} {n : Nat} (hi : I http) (h : readLoop polls http = some (n, http')) :
    I http' ∧ n = http'.outbufOff
      ∧ (http'.outbufSize ≤ n ∨ http'.curl.events = [] ∧ http'.state = .ready
        ∨ ∃ poll ∈ polls, ¬ poll.Ok) := by
  induction polls generalizing http with
  | nil =>
      by_cases hlt : http.outbufOff < http.outbufSize
      · rw [readLoop, if_pos hlt] at h
        cases h
      · rw [readLoop_full (not_lt.mp hlt)] at h
        obtain ⟨rfl, rfl⟩ := Prod.mk.inj (Option.some.inj h)
        exact ⟨hi, rfl, .inl (not_lt.mp hlt)⟩
  | cons poll polls ih =>
      by_cases hlt : http.outbufOff < http.outbufSize
      · have hdel := deliver_keeps hI.delivered poll.events hi
        rw [readLoop_round hlt] at h
        dsimp only at h
        split at h
        · next hwait =>
          obtain ⟨rfl, rfl⟩ := Prod.mk.inj (Option.some.inj h)
          exact ⟨hi, rfl, .inr (.inr ⟨poll, List.mem_cons_self, fun hok => by
            simp [hok.1] at hwait⟩)⟩
        split at h
        · next hnil =>
          obtain ⟨rfl, rfl⟩ := Prod.mk.inj (Option.some.inj h)
          exact ⟨hI.ready hdel hnil, rfl, .inr (.inl ⟨hnil, rfl⟩)⟩
        split at h
        · next hperform =>
          obtain ⟨rfl, rfl⟩ := Prod.mk.inj (Option.some.inj h)
          exact ⟨hdel, rfl, .inr (.inr ⟨poll, List.mem_cons_self, fun hok => by
            simp [hok.2] at hperform⟩)⟩
        have hnext : I (if (deliver poll.events http).state = .ready then
            { deliver poll.events http with state := .working } else deliver poll.events http) := by
          split
          · next hready => exact hI.working hdel hready
          · exact hdel
        obtain ⟨hi', hn, hend⟩ := ih hnext h
        refine ⟨hi', hn, hend.imp_right (Or.imp_right ?_)⟩
        rintro ⟨p, hp, hbad⟩
        exact ⟨p, List.mem_cons_of_mem _ hp, hbad⟩
      · rw [readLoop_full (not_lt.mp hlt)] at h
        obtain ⟨rfl, rfl⟩ := Prod.mk.inj (Option.some.inj h)
        exact ⟨hi, rfl, .inl (not_lt.mp hlt)⟩

theorem readLoop_keeps {I : SlHttp → Prop} (hI : Kept I) {polls : List Poll}
    (hok : ∀ poll ∈ polls, poll.Ok) {http http' : SlHttp} {n : Nat} (hi : I http)
    (h : readLoop polls http = some (n, http')) :
    I http' ∧ n = http'.outbufOff
      ∧ (http'.outbufSize ≤ n ∨ http'.curl.events = [] ∧ http'.state = .ready) := by
  obtain ⟨hi', hn, hfull | hdone | ⟨poll, hp, hbad⟩⟩ := readLoop_kept hI hi h
  · exact ⟨hi', hn, .inl hfull⟩
  · exact ⟨hi', hn, .inr hdone⟩
  · exact absurd (hok poll hp) hbad

/-! ## Progress -/

/-- Every event that is delivered shortens the transfer or pauses it. -/
theorem Delivered.shortens {http http' : SlHttp} (hd : Delivered http http') :
    http' = http ∧ (http.curl.paused = true ∨ http.curl.events = [])
      ∨ http'.curl.paused = true ∨ http'.curl.events.length < http.curl.events.length := by
  cases hd with
  | none h => exact .inl ⟨rfl, h⟩
  | @header line events len status range hp he =>
      refine .inr (.inr ?_)
      show (if unsatisfiable line then [] else events).length < _
      rw [he]
      split <;> simp
  | abort hp he hs => exact .inr (.inr (by rw [he]; exact Nat.succ_pos _))
  | take hp he hs hn hlt => exact .inr (.inr (by rw [he]; exact Nat.lt_succ_self _))
  | fill hp he hs hn hle => exact .inr (.inl rfl)

theorem Delivered.length_le {http http' : SlHttp} (hd : Delivered http http') :
    http'.curl.events.length ≤ http.curl.events.length := by
  rcases hd.shortens with ⟨rfl, -⟩ | hpaused | hlt
  · exact le_rfl
  · cases hd with
    | none => exact le_rfl
    | header _ _ _ hp => exact absurd (hp.symm.trans hpaused) Bool.false_ne_true
    | abort hp => exact absurd (hp.symm.trans hpaused) Bool.false_ne_true
    | take hp => exact absurd (hp.symm.trans hpaused) Bool.false_ne_true
    | fill => exact le_rfl
  · exact hlt.le

theorem deliver_shortens {http : SlHttp} (hp : http.curl.paused = false)
    (hne : http.curl.events ≠ []) {n : Nat} (hn : 1 ≤ n) :
    (deliver n http).curl.paused = true
      ∨ (deliver n http).curl.events.length < http.curl.events.length := by
  obtain ⟨m, rfl⟩ := Nat.exists_eq_add_of_le' hn
  rw [deliver]
  refine deliver_keeps (I := fun h =>
    h.curl.paused = true ∨ h.curl.events.length < http.curl.events.length) ?_ m ?_
  · intro h h' hi hd
    rcases hd.shortens with ⟨rfl, -⟩ | hpaused | hlt
    · exact hi
    · exact .inl hpaused
    · rcases hi with hpaused | hshort
      · rw [hd.stuck (.inl hpaused)]
        exact .inl hpaused
      · exact .inr (hlt.trans hshort)
  · rcases (deliverOne_cases http).shortens with ⟨-, hpaused | hnil⟩ | h
    · exact absurd (hp.symm.trans hpaused) Bool.false_ne_true
    · exact absurd hnil hne
    · exact h

/-- The loop returns when there are as many rounds as events, and each
delivers one at least. -/
theorem readLoop_returns {polls : List Poll} (hok : ∀ poll ∈ polls, poll.Ok ∧ 1 ≤ poll.events)
    {http : SlHttp} (hi : HttpInv http) (hlen : http.curl.events.length < polls.length) :
    (readLoop polls http).isSome := by
  induction polls generalizing http with
  | nil => cases hlen
  | cons poll polls ih =>
      obtain ⟨hpoll, hone⟩ := hok poll List.mem_cons_self
      have hrest : ∀ p ∈ polls, p.Ok ∧ 1 ≤ p.events := fun p hp =>
        hok p (List.mem_cons_of_mem _ hp)
      by_cases hlt : http.outbufOff < http.outbufSize
      · have hpaused : http.curl.paused = false := by
          cases hp : http.curl.paused with
          | false => rfl
          | true => exact absurd (hi.paused hp).1 hlt.ne
        have hdel := deliver_keeps HttpInv.delivered poll.events hi
        rw [readLoop_poll hlt hpoll]
        dsimp only
        split
        · rfl
        · next hnil =>
          have hne : http.curl.events ≠ [] := fun h => hnil (by rw [deliver_done h, h])
          rcases deliver_shortens hpaused hne hone with hp | hshort
          · obtain ⟨hfull, hs⟩ := hdel.paused hp
            rw [if_neg (by rw [hs]; nofun), readLoop_full hfull.ge]
            rfl
          · rw [List.length_cons] at hlen
            split
            · next hready =>
              exact ih hrest (HttpInv.kept.working hdel hready) (by
                show (deliver poll.events http).curl.events.length < _
                omega)
            · exact ih hrest hdel (by omega)
      · rw [readLoop_full (not_lt.mp hlt)]
        rfl

/-! ## Calls -/

/-- Between calls, in every run. -/
structure HttpIdle (http : SlHttp) : Prop extends Placed http where
  paused : http.curl.paused = true → http.state = .paused
  chunk : http.state = .paused → ChunkNext http.curl.events

/-- The state in which the loop of a read begins. -/
def SlHttp.begin (http : SlHttp) (buffer : ByteMem UInt8) (len : Nat) : SlHttp :=
  ({ http with outbuf := buffer, outbufOff := 0, outbufSize := len } : SlHttp).setPaused false

theorem slHttpReadCb_eq {http : SlHttp} (hp : http.curl.paused = true → http.state = .paused)
    (buffer : ByteMem UInt8) (len cont : Nat) (polls : List Poll) :
    slHttpReadCb http buffer len cont polls
      = readLoop polls
          (deliver (if http.curl.paused then cont else 0) (http.begin buffer len)) := by
  unfold slHttpReadCb easyPauseCont
  dsimp only
  cases hpaused : http.curl.paused with
  | true => rw [if_pos (hp hpaused)]; rfl
  | false =>
      have hbegin : http.begin buffer len
          = { http with outbuf := buffer, outbufOff := 0, outbufSize := len } := by
        rw [SlHttp.begin, SlHttp.setPaused, ← hpaused]
      rw [hbegin]
      simp [deliver]

theorem HttpIdle.begin {http : SlHttp} (hi : HttpIdle http) (buffer : ByteMem UInt8) (len : Nat) :
    HttpInv (http.begin buffer len) :=
  ⟨⟨hi.fits, hi.presented⟩, Nat.zero_le _, nofun, fun hs _ => hi.chunk hs⟩

/-- A call ends with `outbuf` full, or with the transfer. -/
theorem HttpInv.idle {http : SlHttp} (hi : HttpInv http)
    (hend : http.outbufSize ≤ http.outbufOff ∨ http.curl.events = [] ∧ http.state = .ready) :
    HttpIdle http := by
  refine ⟨hi.toPlaced, fun hp => (hi.paused hp).2, fun hs => ?_⟩
  rcases hend with hfull | ⟨-, hready⟩
  · exact hi.chunk hs (le_antisymm hi.room hfull)
  · rw [hready] at hs
    cases hs

theorem slHttpReadCb_keeps {I : SlHttp → Prop} (hI : Kept I) {http http' : SlHttp}
    {buffer : ByteMem UInt8} {len cont n : Nat} {polls : List Poll} (hidle : HttpIdle http)
    (hok : ∀ poll ∈ polls, poll.Ok) (hi : I (http.begin buffer len))
    (h : slHttpReadCb http buffer len cont polls = some (n, http')) :
    I http' ∧ HttpIdle http' ∧ n = http'.outbufOff ∧ n ≤ len
      ∧ (n < len → http'.curl.events = [] ∧ http'.state = .ready) := by
  rw [slHttpReadCb_eq hidle.paused] at h
  have hall := (hI.and HttpInv.kept).and (.outbufSize len)
  obtain ⟨⟨⟨hi', hinv⟩, hsize⟩, hn, hend⟩ := readLoop_keeps hall hok
    (deliver_keeps hall.delivered _ ⟨⟨hi, hidle.begin buffer len⟩, rfl⟩) h
  have hroom := hinv.room
  rw [show http'.outbufSize = len from hsize] at hroom hend
  refine ⟨hi', hinv.idle ?_, hn, by omega, fun hlt => ?_⟩
  · rwa [show http'.outbufSize = len from hsize, ← hn]
  rcases hend with hfull | hdone
  · omega
  · exact hdone

theorem Fed.begin {B got : Bytes} {base : Int} {http : SlHttp} (hfed : Fed B base got http)
    (hidle : HttpIdle http) (buffer : ByteMem UInt8) (len : Nat) :
    Feeding B base got (http.begin buffer len) := by
  refine ⟨hidle.begin buffer len, ?_⟩
  show Fed B base (got ++ buffer.read 0 0) _
  rw [ByteMem.read_zero, List.append_nil]
  exact ⟨hfed.bytes, hfed.tell, hfed.state⟩

/-- A read goes on where the reads before it stopped. -/
theorem Fed.read {B got : Bytes} {base : Int} {http http' : SlHttp} {buffer : ByteMem UInt8}
    {len cont n : Nat} {polls : List Poll} (hfed : Fed B base got http) (hidle : HttpIdle http)
    (hok : ∀ poll ∈ polls, poll.Ok)
    (h : slHttpReadCb http buffer len cont polls = some (n, http')) :
    Fed B base (got ++ http'.outbuf.read 0 n) http' ∧ HttpIdle http' ∧ n ≤ len
      ∧ (n < len → http'.curl.events = [] ∧ got ++ http'.outbuf.read 0 n = B) := by
  obtain ⟨hfed', hidle', rfl, hle, hend⟩ :=
    slHttpReadCb_keeps Feeding.kept hidle hok (hfed.begin hidle buffer len) h
  refine ⟨hfed'.2, hidle', hle, fun hlt => ?_⟩
  obtain ⟨hnil, -⟩ := hend hlt
  have hbytes := hfed'.2.bytes
  rw [hnil, body, List.drop_nil, List.append_nil] at hbytes
  exact ⟨hnil, hbytes⟩

/-! ## Runs of reads -/

/-- The bytes that the reads returned, in order. -/
def bytesRead : List HttpEvent → Bytes
  | [] => []
  | .read _ bytes _ :: trace => bytes ++ bytesRead trace
  | .seek .. :: trace => bytesRead trace

theorem bytesRead_append (trace trace' : List HttpEvent) :
    bytesRead (trace ++ trace') = bytesRead trace ++ bytesRead trace' := by
  induction trace with
  | nil => rfl
  | cons e trace ih =>
      cases e with
      | read len bytes tell => simp only [List.cons_append, bytesRead, ih, List.append_assoc]
      | seek offset whence code tell => exact ih

/-- Read calls in which libcurl reports no error. -/
def ReadsOnly (_ : HttpSys) : HttpCall → Prop
  | .read _ _ _ polls => ∀ poll ∈ polls, poll.Ok
  | .seek .. => False

/-- What the reads of a run have returned, when the transfer delivers `B`. -/
structure HttpSys.Reads (B : Bytes) (x : HttpSys) : Prop where
  idle : HttpIdle x.http
  fed : Fed B 0 (bytesRead x.trace) x.http
  trace : ∀ pre len bytes (tell : Int) post, x.trace = pre ++ .read len bytes tell :: post →
    bytes.length ≤ len ∧ OffAt tell (bytesRead pre ++ bytes).length
      ∧ (bytes.length < len → x.http.curl.events = [] ∧ bytesRead pre ++ bytes = B)

/-- Nothing comes after the end of the transfer. -/
theorem slHttpReadCb_done {http http' : SlHttp} {buffer : ByteMem UInt8} {len cont n : Nat}
    {polls : List Poll} (hidle : HttpIdle http) (hok : ∀ poll ∈ polls, poll.Ok)
    (hnil : http.curl.events = [])
    (h : slHttpReadCb http buffer len cont polls = some (n, http')) : http'.curl.events = [] := by
  have hkept : Kept fun http => http.curl.events = [] :=
    ⟨fun hi hd => hd.stuck (.inr hi) ▸ hi, fun hi _ => hi, fun hi _ => hi⟩
  exact (slHttpReadCb_keeps hkept hidle hok hnil h).1

theorem reads_of_reach {first : List CurlEvent} {x : HttpSys}
    (h : (httpStream first).Reach ReadsOnly x) : x.Reads (body first) := by
  refine h.invariant (fun x hx => ?_) (fun x a x' _ hi ha hs => ?_)
  · obtain ⟨mem, rfl⟩ := hx
    refine ⟨⟨⟨.zero _, nofun⟩, nofun, nofun⟩, ⟨rfl, rfl, nofun⟩, fun pre _ _ _ _ h => ?_⟩
    cases pre <;> cases h
  · cases a with
    | seek => exact absurd ha id
    | read buffer len cont polls =>
        obtain ⟨⟨n, http'⟩, hread, hx⟩ := Option.map_eq_some_iff.mp hs
        obtain rfl := hx
        obtain ⟨hfed, hidle, hle, hend⟩ := hi.fed.read hi.idle ha hread
        have hret :
            bytesRead (x.trace ++ [.read len (http'.outbuf.read 0 n) (slHttpTellCb http')])
              = bytesRead x.trace ++ http'.outbuf.read 0 n := by
          rw [bytesRead_append, bytesRead, bytesRead, List.append_nil]
        refine ⟨hidle, by rwa [hret], fun pre len' bytes tell post h => ?_⟩
        rcases List.eq_nil_or_concat' post with rfl | ⟨post, last, rfl⟩
        · obtain ⟨rfl, he⟩ := List.append_inj' h rfl
          obtain ⟨rfl, rfl, rfl⟩ := HttpEvent.read.inj (List.cons.inj he).1
          rw [ByteMem.length_read]
          exact ⟨hle, hfed.offAt, hend⟩
        · rw [← List.cons_append, ← List.append_assoc] at h
          obtain ⟨htrace, -⟩ := List.append_inj' h rfl
          obtain ⟨hlen, htell, hshort⟩ := hi.trace pre len' bytes tell post htrace
          exact ⟨hlen, htell, fun hlt =>
            ⟨slHttpReadCb_done hi.idle ha (hshort hlt).1 hread, (hshort hlt).2⟩⟩

/-- With an event a round and a round more than there are events, a read
returns. -/
theorem slHttpReadCb_returns {http : SlHttp} (hidle : HttpIdle http) (buffer : ByteMem UInt8)
    (len cont : Nat) {polls : List Poll} (hok : ∀ poll ∈ polls, poll.Ok ∧ 1 ≤ poll.events)
    (hlen : http.curl.events.length < polls.length) :
    (slHttpReadCb http buffer len cont polls).isSome := by
  rw [slHttpReadCb_eq hidle.paused]
  refine readLoop_returns hok (deliver_keeps HttpInv.delivered _ (hidle.begin buffer len)) ?_
  refine lt_of_le_of_lt ?_ hlen
  refine deliver_keeps (I := fun h => h.curl.events.length ≤ http.curl.events.length) ?_ _ le_rfl
  exact fun hi hd => hd.length_le.trans hi

/-- Every read delivers the next bytes of the body, all that it was asked
for or all that there are. -/
structure HttpSys.DeliversOnce (B : Bytes) (x : HttpSys) : Prop where
  inOrder : bytesRead x.trace <+: B
  short : ∀ pre len bytes (tell : Int) post, x.trace = pre ++ .read len bytes tell :: post →
    bytes.length < len → x.http.curl.events = [] ∧ bytesRead pre ++ bytes = B
  told : ∀ pre len bytes (tell : Int) post, x.trace = pre ++ .read len bytes tell :: post →
    bytes.length ≤ len ∧ OffAt tell (bytesRead pre ++ bytes).length
  tell : OffAt (slHttpTellCb x.http) (bytesRead x.trace).length
  presented : ∀ p ∈ x.http.curl.presented, p.1 ≤ p.2
  returns : ∀ buffer len cont polls, (∀ poll ∈ polls, poll.Ok ∧ 1 ≤ poll.events) →
    x.http.curl.events.length < polls.length →
    (slHttpReadCb x.http buffer len cont polls).isSome

/-- **Pausing and resuming deliver each body byte once.** In every run of
reads, of any lengths and with any number of events a round: what they
returned is the beginning of the body, in order; a short read has returned
the last of it, and the transfer is over; `tell` is the number of bytes
returned, exactly up to the largest `off_t` and wrapped beyond; and
`curlbuf_off` is a position in each chunk presented. -/
theorem reads_deliver_once {first : List CurlEvent} {x : HttpSys}
    (h : (httpStream first).Reach ReadsOnly x) : x.DeliversOnce (body first) := by
  have hx := reads_of_reach h
  refine ⟨?_, fun pre len bytes tell post ht hlt => (hx.trace pre len bytes tell post ht).2.2 hlt,
    fun pre len bytes tell post ht => ?_, ?_, hx.idle.presented,
    fun buffer len cont polls => slHttpReadCb_returns hx.idle buffer len cont⟩
  · exact ⟨_, hx.fed.bytes⟩
  · obtain ⟨hlen, htell, -⟩ := hx.trace pre len bytes tell post ht
    exact ⟨hlen, htell⟩
  · exact hx.fed.offAt

/-- A read to the end of a chunk, one of length 0, and one that comes up
short. -/
theorem reads_deliver_once_run :
    ∃ x : HttpSys, x.trace = [.read 3 [1, 2, 3] 3, .read 0 [] 3, .read 5 [4] 4]
      ∧ x.DeliversOnce [1, 2, 3, 4] := by
  let one : Poll := ⟨true, 1, true⟩
  let first : List CurlEvent := [.chunk [1, 2, 3], .chunk [4]]
  let start : SlHttp :=
    slHttpOpen ⟨0, 0, 0, .unknown, ⟨none, [], false, []⟩, 0, 0, 0, fun _ => 0, .ready⟩ first
  let calls : List HttpCall :=
    [.read (fun _ => 0) 3 1 [one], .read (fun _ => 0) 0 1 [one], .read (fun _ => 0) 5 1 [one, one]]
  have hrun : ((httpStream first).run calls ⟨start, []⟩).map (·.trace)
      = some [.read 3 [1, 2, 3] 3, .read 0 [] 3, .read 5 [4] 4] := by decide +kernel
  obtain ⟨x, hx, htrace⟩ := Option.map_eq_some_iff.mp hrun
  have hreach : (httpStream first).Reach ReadsOnly x := by
    refine .run (fun a ha s => ?_) (.init ⟨_, rfl⟩) hx
    obtain rfl | rfl | rfl := by simpa [calls] using ha
    all_goals
      intro poll hpoll
      obtain rfl : poll = one := by simpa using hpoll
      exact ⟨rfl, rfl⟩
  exact ⟨x, htrace, reads_deliver_once hreach⟩

end Streamlike
