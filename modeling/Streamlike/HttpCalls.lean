import Streamlike.HttpRead

/-!
# Calls, whatever libcurl reports

What holds of reads and seeks in every run, also when `curl_multi_wait` or
`curl_multi_perform` fails and a call returns in the middle of a transfer.
Between calls the chunk position fits and a paused transfer has a chunk to
present (`HttpSound`). A read keeps what the events and the changes of
state in its loop keep (`Kept`), and `InRead` are the contexts these lead
through.
-/

namespace Streamlike

/-! ## Reads -/

/-- `curlbuf_off` fits what comes next, and the state tells a paused
transfer, which will present a chunk again. -/
structure HttpSound (http : SlHttp) : Prop where
  fits : Fits http.curlbufOff http.curl.events
  paused : http.curl.paused = true → http.state = .paused ∧ ChunkNext http.curl.events

theorem HttpSound.kept : Kept HttpSound where
  delivered hi hd := by
    refine ⟨hi.fits.delivered hd, ?_⟩
    cases hd with
    | none h => exact hi.paused
    | header len status range hp he =>
        exact fun h => absurd (hp.symm.trans h) Bool.false_ne_true
    | abort hp he hs => exact fun h => absurd (hp.symm.trans h) Bool.false_ne_true
    | take hp he hs hn hlt => exact fun h => absurd (hp.symm.trans h) Bool.false_ne_true
    | fill hp he hs hn hle => exact fun _ => ⟨rfl, _, _, he⟩
  ready hi hnil := by
    refine ⟨hi.fits, fun hp => ?_⟩
    obtain ⟨b, rest, he⟩ := (hi.paused hp).2
    rw [hnil] at he
    cases he
  working hi hready := by
    refine ⟨hi.fits, fun hp => ?_⟩
    have hs := (hi.paused hp).1
    rw [hready] at hs
    cases hs

theorem slHttpReadCb_kept {I : SlHttp → Prop} (hI : Kept I) {http http' : SlHttp}
    {buffer : ByteMem UInt8} {len cont n : Nat} {polls : List Poll} (hsound : HttpSound http)
    (hi : I (http.begin buffer len))
    (h : slHttpReadCb http buffer len cont polls = some (n, http')) :
    I http' ∧ n = http'.outbufOff := by
  rw [slHttpReadCb_eq fun hp => (hsound.paused hp).1] at h
  obtain ⟨hi', hn, -⟩ := readLoop_kept hI (deliver_keeps hI.delivered _ hi) h
  exact ⟨hi', hn⟩

theorem HttpSound.begin {http : SlHttp} (hi : HttpSound http) (buffer : ByteMem UInt8) (len : Nat) :
    HttpSound (http.begin buffer len) :=
  ⟨hi.fits, nofun⟩

/-- The contexts that a read leads through, when it has begun with
`http`. -/
inductive InRead (http : SlHttp) : SlHttp → Prop
  | begin : InRead http http
  | event {h h' : SlHttp} : InRead http h → Delivered h h' → InRead http h'
  | ready {h : SlHttp} : InRead http h → h.curl.events = [] → InRead http { h with state := .ready }
  | working {h : SlHttp} : InRead http h → h.state = .ready →
      InRead http { h with state := .working }

/-- What the loop of a read keeps holds wherever it leads. -/
theorem InRead.keeps {I : SlHttp → Prop} (hI : Kept I) {http http' : SlHttp} (hi : I http)
    (h : InRead http http') : I http' := by
  induction h with
  | begin => exact hi
  | event _ hd ih => exact hI.delivered ih hd
  | ready _ hnil ih => exact hI.ready ih hnil
  | working _ hready ih => exact hI.working ih hready

/-- A read that returns has led to where it returns. -/
theorem slHttpReadCb_inRead {http http' : SlHttp} {buffer : ByteMem UInt8} {len cont n : Nat}
    {polls : List Poll} (hsound : HttpSound http)
    (h : slHttpReadCb http buffer len cont polls = some (n, http')) :
    InRead (http.begin buffer len) http' :=
  (slHttpReadCb_kept ⟨.event, .ready, .working⟩ hsound .begin h).1

/-! ## Seeks -/

/-- A seek is refused, or cancels the transfer and starts a new one. -/
theorem slHttpSeekCb_cases {http http' : SlHttp} {offset whence code : Int} {cont : Nat}
    {polls : List Poll} {next : List CurlEvent}
    (h : slHttpSeekCb http offset whence cont polls next = some (code, http')) :
    (offset < 0 ∧ whence = slSeekSet ∧ code = -1 ∧ http' = http)
      ∨ (¬ (offset < 0 ∧ whence = slSeekSet) ∧ code = 0
        ∧ ∃ http₁, slCancelTransfer_ http cont polls = some http₁
          ∧ http' = restart next { http₁ with
              curl := { http₁.curl with range := some (toString offset ++ "-") }
              httpOff := offset
              curlbufOff := 0 }) := by
  unfold slHttpSeekCb at h
  split at h
  · next hneg =>
    obtain ⟨rfl, rfl⟩ := Prod.mk.inj (Option.some.inj h)
    exact .inl ⟨hneg.1, hneg.2, rfl, rfl⟩
  · next hpos =>
    obtain ⟨http₁, hcancel, hrest⟩ := Option.map_eq_some_iff.mp h
    obtain ⟨rfl, rfl⟩ := Prod.mk.inj hrest
    exact .inr ⟨hpos, rfl, http₁, hcancel, rfl⟩

theorem HttpSound.seek {http http' : SlHttp} {offset whence code : Int} {cont : Nat}
    {polls : List Poll} {next : List CurlEvent} (hi : HttpSound http)
    (h : slHttpSeekCb http offset whence cont polls next = some (code, http')) :
    HttpSound http' := by
  rcases slHttpSeekCb_cases h with ⟨-, -, -, rfl⟩ | ⟨-, -, http₁, -, rfl⟩
  · exact hi
  · refine ⟨.zero _, fun hp => ?_⟩
    cases hp

/-! ## Runs -/

variable {first : List CurlEvent} {ok : HttpSys → HttpCall → Prop}

theorem sound_of_reach {x : HttpSys} (h : (httpStream first).Reach ok x) : HttpSound x.http := by
  refine h.invariant (I := fun x => HttpSound x.http) (fun x hx => ?_)
    (fun x a x' _ hi _ hs => ?_)
  · obtain ⟨mem, rfl⟩ := hx
    exact ⟨.zero _, nofun⟩
  · cases a with
    | read buffer len cont polls =>
        obtain ⟨⟨n, http'⟩, hread, rfl⟩ := Option.map_eq_some_iff.mp hs
        exact (slHttpReadCb_kept HttpSound.kept hi (hi.begin buffer len) hread).1
    | seek offset whence cont polls next =>
        obtain ⟨⟨code, http'⟩, hseek, rfl⟩ := Option.map_eq_some_iff.mp hs
        exact hi.seek hseek

end Streamlike
