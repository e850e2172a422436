import Streamlike.HttpCalls

/-!
# A seek can leak its cancellation

`sl_cancel_transfer_` asks the write callback to abort the transfer, by way
of the state, and waits for the transfer to end. Only the write callback
leaves `SL_HTTP_ABORT_REQUESTED`. A transfer that ends before it has a
chunk to deliver, as one that is answered with 416 does, leaves the request
in the state, and the next transfer is the one that is aborted.

`Aborting` is what the cancellation keeps, `cancel_state` what it comes to.
-/

namespace Streamlike

/-! ## The cancellation -/

/-- The transfer delivers a chunk before it ends. -/
def deliversBody : List CurlEvent → Bool
  | [] => false
  | .header line :: events => !unsatisfiable line && deliversBody events
  | .chunk _ :: _ => true

/-- While a cancellation waits; `D` is whether the transfer had a chunk to
deliver when it began. -/
structure Aborting (D : Bool) (http : SlHttp) : Prop extends Placed http where
  unpaused : http.curl.paused = false
  outcome : http.state = .abortRequested ∧ deliversBody http.curl.events = D
    ∨ http.state = .aborted ∧ http.curl.events = [] ∧ D = true

theorem Aborting.delivered {D : Bool} {http http' : SlHttp} (hi : Aborting D http)
    (hd : Delivered http http') : Aborting D http' := by
  have hplaced := hi.toPlaced.delivered hd
  rcases hi.outcome with ⟨hs, hD⟩ | ⟨-, hnil, -⟩
  · cases hd with
    | none => exact hi
    | @header line events len status range hp he =>
        rw [he, deliversBody] at hD
        refine ⟨hplaced, hp, .inl ⟨hs, ?_⟩⟩
        rw [← hD]
        show deliversBody (if unsatisfiable line then [] else events) = _
        cases unsatisfiable line <;> rfl
    | abort hp he => exact ⟨hplaced, hp, .inr ⟨rfl, rfl, by rw [← hD, he]; rfl⟩⟩
    | take hp he hne => exact absurd hs hne
    | fill hp he hne => exact absurd hs hne
  · rw [hd.stuck (.inr hnil)]
    exact hi

theorem cancelLoop_keeps {I : SlHttp → Prop}
    (hI : ∀ {http http'}, I http → Delivered http http' → I http') {polls : List Poll}
    (hok : ∀ poll ∈ polls, poll.Ok) {http http' : SlHttp} (hi : I http)
    (h : cancelLoop polls http = some http') : I http' ∧ http'.curl.events = [] := by
  induction polls generalizing http with
  | nil => cases h
  | cons poll polls ih =>
      have hdel := deliver_keeps hI poll.events hi
      obtain ⟨-, hperform⟩ := hok poll List.mem_cons_self
      rw [cancelLoop, multiPerform, hperform] at h
      dsimp only at h
      cases hevents : (deliver poll.events http).curl.events with
      | nil =>
          rw [hevents] at h
          obtain rfl := Option.some.inj h
          exact ⟨hdel, hevents⟩
      | cons e events =>
          rw [hevents] at h
          exact ih (fun p hp => hok p (List.mem_cons_of_mem _ hp)) hdel h

theorem easyPauseCont_eq (n : Nat) (http : SlHttp) :
    ∃ m, easyPauseCont n http = deliver m (http.setPaused false) := by
  unfold easyPauseCont
  split
  · exact ⟨n, rfl⟩
  · next hp => exact ⟨0, by rw [deliver, SlHttp.setPaused, ← Bool.eq_false_iff.mpr hp]⟩

/-- How a cancellation begins to wait, with the transfer unpaused. -/
theorem abort_begin {http : SlHttp} (hidle : HttpIdle http) (cont : Nat) :
    ∃ m, (if http.state = .paused then easyPauseCont cont { http with state := .abortRequested }
      else { http with state := .abortRequested })
      = deliver m (({ http with state := .abortRequested } : SlHttp).setPaused false) := by
  split
  · exact easyPauseCont_eq cont _
  · next hs =>
    have hp : http.curl.paused = false := Bool.eq_false_iff.mpr fun hp => hs (hidle.paused hp)
    exact ⟨0, by rw [deliver, SlHttp.setPaused, ← hp]⟩

/-- A cancellation that waits ends in `SL_HTTP_ABORTED` when there is a
chunk to abort at, and leaves its request when there is none. -/
theorem cancel_state {http http' : SlHttp} {cont : Nat} {polls : List Poll}
    (hidle : HttpIdle http) (hok : ∀ poll ∈ polls, poll.Ok)
    (h : slCancelTransfer_ http cont polls = some http') :
    (∀ p ∈ http'.curl.presented, p.1 ≤ p.2)
      ∧ (http.state = .ready ∧ http'.state = .ready
        ∨ http.state ≠ .ready ∧ http'.state =
          if deliversBody http.curl.events then .aborted else .abortRequested) := by
  unfold slCancelTransfer_ at h
  by_cases hready : http.state = .ready
  · rw [if_pos hready] at h
    obtain rfl := Option.some.inj h
    exact ⟨hidle.presented, .inl ⟨hready, hready⟩⟩
  · rw [if_neg hready] at h
    obtain ⟨m, hm⟩ := abort_begin hidle cont
    rw [hm] at h
    have hbegin : Aborting (deliversBody http.curl.events)
        (deliver m (({ http with state := .abortRequested } : SlHttp).setPaused false)) :=
      deliver_keeps Aborting.delivered m
        ⟨⟨hidle.fits, hidle.presented⟩, rfl, .inl ⟨rfl, rfl⟩⟩
    obtain ⟨http₁, h₁, rfl⟩ := Option.map_eq_some_iff.mp h
    have hend : Aborting (deliversBody http.curl.events) http₁
        ∧ (http₁.state = .aborted ∨ http₁.curl.events = []) := by
      split at h₁
      · obtain ⟨hi, hnil⟩ := cancelLoop_keeps Aborting.delivered hok hbegin h₁
        exact ⟨hi, .inr hnil⟩
      · next hs =>
        obtain rfl := Option.some.inj h₁
        exact ⟨hbegin, .inl (not_not.mp hs)⟩
    obtain ⟨hi, hdone⟩ := hend
    refine ⟨hi.presented, .inr ⟨hready, ?_⟩⟩
    show http₁.state = _
    rcases hi.outcome with ⟨hs, hD⟩ | ⟨hs, -, hD⟩
    · have hnil : http₁.curl.events = [] := hdone.resolve_left (by rw [hs]; nofun)
      rw [hnil, deliversBody] at hD
      rw [hs, ← hD]
      rfl
    · rw [hs, hD]
      rfl

/-! ## Seeks -/

/-- The condition on a seek: there is nothing to cancel, or a chunk to abort
at. -/
def SlHttp.Cancels (http : SlHttp) : Prop :=
  http.state = .ready ∨ deliversBody http.curl.events = true

/-- What a seek leaves behind. -/
structure Sought (http : SlHttp) (offset : Int) (next : List CurlEvent) (http' : SlHttp) :
    Prop where
  idle : HttpIdle http'
  events : http'.curl.events = next
  curlbufOff : http'.curlbufOff = 0
  httpOff : http'.httpOff = offset
  state : http'.state ≠ .abortRequested ↔ http.Cancels

theorem slHttpSeekCb_sought {http http' : SlHttp} {offset whence code : Int} {cont : Nat}
    {polls : List Poll} {next : List CurlEvent} (hidle : HttpIdle http)
    (hok : ∀ poll ∈ polls, poll.Ok)
    (h : slHttpSeekCb http offset whence cont polls next = some (code, http')) :
    offset < 0 ∧ code = -1 ∧ http' = http ∨ code = 0 ∧ Sought http offset next http' := by
  rcases slHttpSeekCb_cases h with ⟨hneg, -, rfl, rfl⟩ | ⟨-, rfl, http₁, h₁, rfl⟩
  · exact .inl ⟨hneg, rfl, rfl⟩
  · obtain ⟨hpresented, hstate⟩ := cancel_state hidle hok h₁
    have hne : http₁.state ≠ .paused := by
      rcases hstate with ⟨-, hs⟩ | ⟨-, hs⟩
      · rw [hs]; nofun
      · rw [hs]; split <;> nofun
    refine .inr ⟨rfl, ⟨⟨.zero _, hpresented⟩, nofun, fun hs => absurd hs hne⟩, rfl, rfl, rfl, ?_⟩
    show http₁.state ≠ .abortRequested ↔ _
    rcases hstate with ⟨hready, hs⟩ | ⟨hready, hs⟩
    · exact iff_of_true (by rw [hs]; nofun) (.inl hready)
    · rw [hs, SlHttp.Cancels]
      cases deliversBody http.curl.events <;> simp [hready]

/-! ## Runs -/

/-- Calls in which libcurl reports no error. -/
def PollsOk (_ : HttpSys) : HttpCall → Prop
  | .read _ _ _ polls => ∀ poll ∈ polls, poll.Ok
  | .seek _ _ _ polls _ => ∀ poll ∈ polls, poll.Ok

variable {first : List CurlEvent}

theorem Kept.trivial : Kept fun _ => True where
  delivered _ _ := True.intro
  ready _ _ := True.intro
  working _ _ := True.intro

theorem idle_of_reach {x : HttpSys} (h : (httpStream first).Reach PollsOk x) :
    HttpIdle x.http := by
  refine h.invariant (I := fun x => HttpIdle x.http) (fun x hx => ?_)
    (fun x a x' _ hi ha hs => ?_)
  · obtain ⟨mem, rfl⟩ := hx
    exact ⟨⟨.zero _, nofun⟩, nofun, nofun⟩
  · cases a with
    | read buffer len cont polls =>
        obtain ⟨⟨n, http'⟩, hread, rfl⟩ := Option.map_eq_some_iff.mp hs
        exact (slHttpReadCb_keeps .trivial hi ha True.intro hread).2.1
    | seek offset whence cont polls next =>
        obtain ⟨⟨code, http'⟩, hseek, rfl⟩ := Option.map_eq_some_iff.mp hs
        rcases slHttpSeekCb_sought hi ha hseek with ⟨-, -, rfl⟩ | ⟨-, hsought⟩
        · exact hi
        · exact hsought.idle

/-- Reads that follow go on with the body. -/
theorem Fed.steps {B got : Bytes} {base : Int} {x y : HttpSys} (hidle : HttpIdle x.http)
    (hfed : Fed B base got x.http) (h : (httpStream first).Steps ReadsOnly x y) :
    HttpIdle y.http ∧ ∃ trace, y.trace = x.trace ++ trace
      ∧ Fed B base (got ++ bytesRead trace) y.http := by
  induction h with
  | refl => exact ⟨hidle, [], by simp, by simpa [bytesRead] using hfed⟩
  | @tail y z a hy ha hs ih =>
      obtain ⟨hidle, trace, htrace, hfed⟩ := ih
      cases a with
      | seek => exact absurd ha id
      | read buffer len cont polls =>
          obtain ⟨⟨n, http'⟩, hread, rfl⟩ := Option.map_eq_some_iff.mp hs
          obtain ⟨hfed', hidle', -⟩ := hfed.read hidle ha hread
          refine ⟨hidle', trace ++ [.read len (http'.outbuf.read 0 n) (slHttpTellCb http')], ?_, ?_⟩
          · rw [← List.append_assoc, ← htrace]
          · rw [bytesRead_append, bytesRead, bytesRead, List.append_nil, ← List.append_assoc]
            exact hfed'

/-- The transfer delivers the response `next` from its first byte on, and
nothing of it is discarded. -/
structure HttpSys.Fresh (first next : List CurlEvent) (x : HttpSys) : Prop where
  state : x.http.state ≠ .abortRequested
  curlbufOff : x.http.curlbufOff = 0
  nextRead : ∀ buffer len cont polls n http', (∀ poll ∈ polls, poll.Ok) →
    slHttpReadCb x.http buffer len cont polls = some (n, http') →
    http'.outbuf.read 0 n = (body next).take len
  returns : ∀ buffer len cont polls, (∀ poll ∈ polls, poll.Ok ∧ 1 ≤ poll.events) →
    next.length < polls.length → (slHttpReadCb x.http buffer len cont polls).isSome
  reads : ∀ y trace, (httpStream first).Steps ReadsOnly x y → y.trace = x.trace ++ trace →
    y.http.state ≠ .abortRequested ∧ bytesRead trace <+: body next

theorem Sought.fresh {http : SlHttp} {offset : Int} {next : List CurlEvent} {x : HttpSys}
    (hs : Sought http offset next x.http) (hstate : x.http.state ≠ .abortRequested) :
    x.Fresh first next := by
  obtain ⟨hidle, rfl, hoff, rfl, -⟩ := hs
  have hfed : Fed (body x.http.curl.events) x.http.httpOff [] x.http :=
    ⟨by rw [hoff]; rfl, rfl, hstate⟩
  refine ⟨hstate, hoff, fun buffer len cont polls n http' hok h => ?_,
    fun buffer len cont polls => slHttpReadCb_returns hidle buffer len cont,
    fun y trace hsteps htrace => ?_⟩
  · obtain ⟨hfed', -, hle, hshort⟩ := hfed.read hidle hok h
    have hbytes := hfed'.bytes
    rcases hle.eq_or_lt with rfl | hlt
    · rw [List.nil_append] at hbytes
      rw [← hbytes, List.take_left' (ByteMem.length_read _ _ _)]
    · rw [← (hshort hlt).2, List.nil_append, List.take_of_length_le]
      rw [ByteMem.length_read]
      exact hle
  · obtain ⟨-, trace', htrace', hfed'⟩ := hfed.steps hidle hsteps
    obtain rfl := List.append_cancel_left (htrace.symm.trans htrace')
    exact ⟨hfed'.state, _, hfed'.bytes⟩

/-- Only seeks that cancel cleanly. -/
def SeeksCancel (x : HttpSys) (a : HttpCall) : Prop :=
  PollsOk x a ∧ ∀ offset whence cont polls next, a = .seek offset whence cont polls next →
    x.http.Cancels

/-- A read does not request an abort. -/
theorem kept_not_abortRequested : Kept fun http => http.state ≠ .abortRequested where
  delivered hi hd := by
    cases hd with
    | none => exact hi
    | header => exact hi
    | abort => nofun
    | take => exact hi
    | fill => nofun
  ready _ _ := nofun
  working _ _ := nofun

/-- After a seek that returned 0, the next read begins the response. -/
def HttpSys.SeekFresh (first : List CurlEvent) (x : HttpSys) : Prop :=
  ∀ trace offset whence tell, x.trace = trace ++ [.seek offset whence 0 tell] →
    x.Fresh first x.http.curl.events

theorem seekFresh_of_reach {x : HttpSys} (h : (httpStream first).Reach SeeksCancel x) :
    x.http.state ≠ .abortRequested ∧ x.SeekFresh first := by
  refine h.invariant
    (I := fun x => x.http.state ≠ .abortRequested ∧ x.SeekFresh first) (fun x hx => ?_)
    (fun x a x' hx hi ha hs => ?_)
  · obtain ⟨mem, rfl⟩ := hx
    exact ⟨nofun, fun trace _ _ _ h => by cases trace <;> cases h⟩
  · have hidle := idle_of_reach (hx.mono fun _ _ h => h.1)
    obtain ⟨hok, hcancels⟩ := ha
    cases a with
    | read buffer len cont polls =>
        obtain ⟨⟨n, http'⟩, hread, rfl⟩ := Option.map_eq_some_iff.mp hs
        refine ⟨(slHttpReadCb_keeps kept_not_abortRequested hidle hok hi.1 hread).1,
          fun trace _ _ _ h => ?_⟩
        cases (List.append_inj' h rfl).2
    | seek offset whence cont polls next =>
        obtain ⟨⟨code, http'⟩, hseek, rfl⟩ := Option.map_eq_some_iff.mp hs
        rcases slHttpSeekCb_sought hidle hok hseek with ⟨-, rfl, rfl⟩ | ⟨rfl, hsought⟩
        · refine ⟨hi.1, fun trace _ _ _ h => ?_⟩
          cases (List.append_inj' h rfl).2
        · have hstate := hsought.state.mpr (hcancels _ _ _ _ _ rfl)
          refine ⟨hstate, fun _ _ _ _ _ => ?_⟩
          have hevents := hsought.events
          rw [← hevents] at hsought
          exact hsought.fresh hstate

/-- **A seek leaks no cancellation**, in the runs in which every seek finds
nothing to cancel or a chunk to abort at: no request to abort is left behind,
and what follows a seek is the response it asked for. In any run, this holds
of a seek exactly when it finds that. -/
theorem seek_fresh (first : List CurlEvent) :
    (∀ x, (httpStream first).Reach SeeksCancel x →
      x.http.state ≠ .abortRequested ∧ x.SeekFresh first)
      ∧ ∀ x, (httpStream first).Reach PollsOk x →
        ∀ offset whence cont polls next x', 0 ≤ offset → (∀ poll ∈ polls, poll.Ok) →
          (httpStream first).step (.seek offset whence cont polls next) x = some x' →
          (x'.Fresh first next ↔ x.http.Cancels) := by
  refine ⟨fun x h => seekFresh_of_reach h, ?_⟩
  intro x h offset whence cont polls next x' hoff hok hs
  obtain ⟨⟨code, http'⟩, hseek, rfl⟩ := Option.map_eq_some_iff.mp hs
  rcases slHttpSeekCb_sought (idle_of_reach h) hok hseek with ⟨hneg, -⟩ | ⟨-, hsought⟩
  · omega
  · exact ⟨fun hf => hsought.state.mp hf.state,
      fun hc => hsought.fresh (hsought.state.mpr hc)⟩

/-- A seek away from a paused transfer, and a read. -/
theorem seek_fresh_run :
    ∃ x x' : HttpSys, x.trace = [.read 1 [1] 1]
      ∧ x'.trace = [.read 1 [1] 1, .seek 0 slSeekSet 0 0]
      ∧ x'.http.state ≠ .abortRequested ∧ x'.Fresh [.chunk [1, 2]] [.chunk [1, 2]] := by
  let one : Poll := ⟨true, 1, true⟩
  let first : List CurlEvent := [.chunk [1, 2]]
  let start : SlHttp :=
    slHttpOpen ⟨0, 0, 0, .unknown, ⟨none, [], false, []⟩, 0, 0, 0, fun _ => 0, .ready⟩ first
  let read : HttpCall := .read (fun _ => 0) 1 1 [one]
  let seek : HttpCall := .seek 0 slSeekSet 1 [one] first
  have hread : ((httpStream first).step read ⟨start, []⟩).map
      (fun x => (x.trace, decide (x.http.state = .ready), deliversBody x.http.curl.events))
      = some ([.read 1 [1] 1], false, true) := by decide +kernel
  have hseek : (((httpStream first).step read ⟨start, []⟩).bind
      ((httpStream first).step seek)).map (·.trace)
      = some [.read 1 [1] 1, .seek 0 slSeekSet 0 0] := by decide +kernel
  obtain ⟨x, hx, htrace⟩ := Option.map_eq_some_iff.mp hread
  obtain ⟨x', hx', htrace'⟩ := Option.map_eq_some_iff.mp hseek
  rw [hx, Option.bind_some] at hx'
  simp only [Prod.mk.injEq] at htrace
  have hone : ∀ poll ∈ [one], poll.Ok := by
    intro poll hpoll
    obtain rfl := List.mem_singleton.mp hpoll
    exact ⟨rfl, rfl⟩
  have hreach : (httpStream first).Reach SeeksCancel x :=
    .step (a := read) (.init ⟨_, rfl⟩) ⟨hone, fun _ _ _ _ _ h => by simp [read] at h⟩ hx
  have hreach' : (httpStream first).Reach SeeksCancel x' :=
    .step (a := seek) hreach ⟨hone, fun _ _ _ _ _ _ => .inr htrace.2.2⟩ hx'
  obtain ⟨hrun, hiff⟩ := seek_fresh first
  exact ⟨x, x', htrace.1, htrace', (hrun x' hreach').1,
    (hiff x (hreach.mono fun _ _ h => h.1) 0 slSeekSet 1 [one] first x' (by decide) hone hx').mpr
      (.inr htrace.2.2)⟩

/-- After one read of a paused transfer, a seek that is answered with 416
and a seek back: the request to abort that transfer is still there, and the
next read comes up empty. -/
theorem seek_leaks_abort :
    ∃ x : HttpSys, (httpStream [.chunk [1, 2]]).Reach PollsOk x
      ∧ x.trace = [.read 1 [1] 1, .seek 100 slSeekSet 0 100, .seek 0 slSeekSet 0 0]
      ∧ x.http.state = .abortRequested ∧ x.http.curl.events = [.chunk [1, 2]]
      ∧ (slHttpReadCb x.http (fun _ => 0) 2 0 [⟨true, 1, true⟩]).map
          (fun (n, http) => (n, http.state, http.curl.events)) = some (0, .ready, []) := by
  let one : Poll := ⟨true, 1, true⟩
  let first : List CurlEvent := [.chunk [1, 2]]
  -- HTTP/1.1 416
  let status : Bytes := [72, 84, 84, 80, 47, 49, 46, 49, 32, 52, 49, 54, 13, 10]
  let start : SlHttp :=
    slHttpOpen ⟨0, 0, 0, .unknown, ⟨none, [], false, []⟩, 0, 0, 0, fun _ => 0, .ready⟩ first
  let calls : List HttpCall :=
    [.read (fun _ => 0) 1 1 [one], .seek 100 slSeekSet 1 [one] [.header status],
      .seek 0 slSeekSet 1 [one] first]
  have hrun : ((httpStream first).run calls ⟨start, []⟩).map
      (fun x => (x.trace, x.http.state, x.http.curl.events))
      = some ([.read 1 [1] 1, .seek 100 slSeekSet 0 100, .seek 0 slSeekSet 0 0], .abortRequested,
        first) := by decide +kernel
  have hread : (((httpStream first).run calls ⟨start, []⟩).bind fun x =>
      (slHttpReadCb x.http (fun _ => 0) 2 0 [one]).map
        fun (n, http) => (n, http.state, http.curl.events)) = some (0, .ready, []) := by
    decide +kernel
  obtain ⟨x, hx, h⟩ := Option.map_eq_some_iff.mp hrun
  simp only [Prod.mk.injEq] at h
  rw [hx, Option.bind_some] at hread
  refine ⟨x, .run (fun a ha s => ?_) (.init ⟨_, rfl⟩) hx, h.1, h.2.1, h.2.2, hread⟩
  obtain rfl | rfl | rfl := by simpa [calls] using ha
  all_goals
    intro poll hpoll
    obtain rfl : poll = one := by simpa using hpoll
    exact ⟨rfl, rfl⟩

end Streamlike
