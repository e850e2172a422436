import Streamlike.CircbufThreads

/-!
# The buffered stream

`buffer.c` after `sl_buffer_threaded_fill_buffer`: the filler thread runs
`fill_buffer`, the user of the stream calls `sl_buffer_read_cb`,
`sl_buffer_seek_cb` and in the end `sl_buffer_destroy`, with assertions
compiled out. The filler is the producer of the circular buffer and the
user its consumer; the steps inside a circbuf call are those of
`CircbufThreads`, and the four stores of `circbuf_reset` are four steps.

`seek_cond` is waited on by both threads, so it is shown twice, from the
side of each; a signal can only find the other thread parked.

What the inner stream does is left to the action: any bytes and any count
up to the request for a read, any result for a seek.

The history variables: `base` is where the last successful inner seek put
the inner stream, `epoch` counts those seeks, `reqs` counts the requests
raised and `served` lists the inner seeks of the filler with the request
they answer; `direct` lists those of the user; `trace` lists what the
user's calls returned.
-/

namespace Streamlike

variable {α : Type}

/-- `SL_SEEK_SET`. -/
def slSeekSet : Int := 0

/-- An inner seek executed by the filler, and the request that was
outstanding. -/
structure Served where
  req : Nat
  off : Int
  whence : Int
  result : Int
deriving Repr, DecidableEq

/-- A returned call: its arguments, what it gave back, and what `tell` and
`eof` say after it. `tell₀` is the offset before a read, `epoch` the epoch
it ended in; `found` tells whether a seek found `filler_started` set. -/
inductive Event (α : Type) where
  | read (tell₀ : Int) (len : Nat) (bytes : List α) (epoch : Nat) (tell : Int) (eof : Bool)
  | seek (off whence code : Int) (found : Bool) (tell : Int) (eof : Bool)

/-- `struct sl_buffer_s` with its locks, the position of its inner stream,
whether the filler has returned, and the history variables. -/
structure SlBuffer (α : Type) where
  cbuf : Shared α
  fillerStarted : Bool
  pos : Int
  stepSize : Nat
  eof : Bool
  seekLock : Option Tid
  fillerCond : Wait
  userCond : Wait
  seekRequested : Bool
  seekOff : Int
  seekWhence : Int
  seekResult : Int
  inner : Nat
  exited : Bool
  base : Nat
  epoch : Nat
  reqs : Nat
  served : List Served
  direct : List (Int × Int × Int)
  trace : List (Event α)

/-- The context as `sl_buffer_create2` fills it in. -/
def SlBuffer.fresh (cb : Circbuf α) (step_size : Nat) : SlBuffer α :=
  { cbuf := .fresh cb, fillerStarted := false, pos := 0, stepSize := step_size, eof := false,
    seekLock := none, fillerCond := .out, userCond := .out, seekRequested := false,
    seekOff := 0, seekWhence := 0, seekResult := 0, inner := 0, exited := false,
    base := 0, epoch := 0, reqs := 0, served := [], direct := [], trace := [] }

/-- `sl_buffer_create2`. The other allocations and initialisations succeed
or not with `others`. -/
def slBufferCreate2 (env : InitEnv α) (others : Bool) (buffer_size step_size : Nat) :
    Option (SlBuffer α) :=
  if buffer_size = 0 then none
  else if step_size = 0 then none
  else
    match circbufInit env buffer_size with
    | none => none
    | some cb => if others then some (.fresh cb step_size) else none

/-! ## The filler -/

/-- Program points of `fill_buffer`. -/
inductive FPc (α : Type) where
  -- filler_started = 1 under the lock
  | startLock
  | start
  | startUnlock
  -- while (!circbuf_is_read_closed(cbuf) || seek_requested)
  | loopR
  | loopQ
  | ifReq
  -- seek_result = sl_seek(inner_stream, seek_off, seek_whence)
  | loadOff
  | loadWhence (off : Int)
  | innerSeek (off whence : Int)
  | storeResult (result : Int)
  | seekLock
  | testResult
  -- circbuf_reset
  | reset0
  | reset1
  | reset2
  | reset3
  | clearReq
  | signalUser
  | seekUnlock
  -- circbuf_write2
  | write (p : PPc α)
  -- written < step_size
  | endLock
  | closeWrite (p : PPc α)
  | testRead
  | wait
  | parked
  | endUnlock
  | exited

/-- Begin `circbuf_write2(cbuf, filler_cb, inner_stream, step_size)`. -/
def FPc.startWrite (s : SlBuffer α) : FPc α :=
  .write ((PCall.write2 s.stepSize).start s.cbuf)

/-- One step of the filler's program. -/
def fgo (s : SlBuffer α) : FPc α → Option (SlBuffer α × FPc α)
  | .startLock =>
      if s.seekLock = none then some ({ s with seekLock := some .producer }, .start) else none
  | .start => some ({ s with fillerStarted := true }, .startUnlock)
  | .startUnlock => some ({ s with seekLock := none }, .loopR)
  | .loopR => some (s, if s.cbuf.cb.rdone then .loopQ else .ifReq)
  | .loopQ =>
      if s.seekRequested then some (s, .ifReq) else some ({ s with exited := true }, .exited)
  | .ifReq => some (s, if s.seekRequested then .loadOff else .startWrite s)
  | .loadOff => some (s, .loadWhence s.seekOff)
  | .loadWhence off => some (s, .innerSeek off s.seekWhence)
  | .innerSeek _ _ => none
  | .storeResult result => some ({ s with seekResult := result }, .seekLock)
  | .seekLock =>
      if s.seekLock = none then some ({ s with seekLock := some .producer }, .testResult) else none
  | .testResult => some (s, if s.seekResult = 0 then .reset0 else .clearReq)
  | .reset0 =>
      some ({ s with cbuf := { s.cbuf with cb := { s.cbuf.cb with rdone := false } } }, .reset1)
  | .reset1 =>
      some ({ s with cbuf := { s.cbuf with cb := { s.cbuf.cb with wdone := false } } }, .reset2)
  | .reset2 =>
      some ({ s with cbuf := { s.cbuf with cb := { s.cbuf.cb with woff := 0 } } }, .reset3)
  | .reset3 =>
      some ({ s with cbuf := { s.cbuf with cb := { s.cbuf.cb with roff := 0 },
                                           produced := [], released := [], view := none } },
        .clearReq)
  | .clearReq => some ({ s with seekRequested := false }, .signalUser)
  | .signalUser => some ({ s with userCond := s.userCond.signal }, .seekUnlock)
  | .seekUnlock => some ({ s with seekLock := none }, .startWrite s)
  | .write (.ret _ written) => some (s, if written < s.stepSize then .endLock else .loopR)
  | .write p => (pgo s.cbuf p).map fun (cbuf, p) => ({ s with cbuf }, .write p)
  | .endLock =>
      if s.seekLock = none then
        some ({ s with seekLock := some .producer }, .closeWrite (PCall.closeWrite.start s.cbuf))
      else none
  | .closeWrite (.closed _) => some (s, .testRead)
  | .closeWrite p => (pgo s.cbuf p).map fun (cbuf, p) => ({ s with cbuf }, .closeWrite p)
  -- while (!circbuf_is_read_closed(cbuf)) pthread_cond_wait(seek_cond, seek_lock)
  | .testRead => some (s, if s.cbuf.cb.rdone then .endUnlock else .wait)
  | .wait => some ({ s with seekLock := none, fillerCond := .parked }, .parked)
  | .parked =>
      if s.fillerCond = .woken ∧ s.seekLock = none then
        some ({ s with seekLock := some .producer, fillerCond := .out }, .testRead)
      else none
  | .endUnlock => some ({ s with seekLock := none }, .loopR)
  | .exited => none

/-- Actions of the filler: the next step of the program; a byte stored by
the inner read, and its return; the return of the inner seek, with the
position it leaves; a spurious wake-up. -/
inductive FAct (α : Type) where
  | go
  | store (i : Nat) (b : α)
  | readRet (n : Nat)
  | seekRet (result : Int) (dest : Nat)
  | spurious

/-- What the return of an inner seek does to the inner stream. -/
def SlBuffer.innerSeek (s : SlBuffer α) (result : Int) (dest : Nat) : SlBuffer α :=
  { s with inner := dest
           base := if result = 0 then dest else s.base
           epoch := if result = 0 then s.epoch + 1 else s.epoch }

def fstep (a : FAct α) (s : SlBuffer α) (f : FPc α) : Option (SlBuffer α × FPc α) :=
  match a with
  | .go => fgo s f
  | .store i b =>
      match f with
      | .write p => (pstep (.store i b) s.cbuf p).map fun (cbuf, p) => ({ s with cbuf }, .write p)
      | _ => none
  | .readRet n =>
      match f with
      | .write p => (pstep (.wret n) s.cbuf p).map fun (cbuf, p) =>
          ({ s with cbuf, inner := s.inner + n }, .write p)
      | _ => none
  | .seekRet result dest =>
      match f with
      | .innerSeek off whence =>
          some ({ s.innerSeek result dest with
                  served := s.served ++ [⟨s.reqs, off, whence, result⟩] },
            .storeResult result)
      | _ => none
  | .spurious =>
      match f with
      | .write p => (pstep .spurious s.cbuf p).map fun (cbuf, p) => ({ s with cbuf }, .write p)
      | .parked =>
          if s.fillerCond = .parked then some ({ s with fillerCond := .woken }, .parked) else none
      | _ => none

/-- What a step of the filler is. -/
inductive FStep (s : SlBuffer α) : FAct α → FPc α → SlBuffer α → FPc α → Prop
  | go {s' : SlBuffer α} {f f' : FPc α} : fgo s f = some (s', f') → FStep s .go f s' f'
  | store {i : Nat} {b : α} {p p' : PPc α} {cbuf : Shared α} :
      pstep (.store i b) s.cbuf p = some (cbuf, p') →
      FStep s (.store i b) (.write p) { s with cbuf } (.write p')
  | readRet {n : Nat} {p p' : PPc α} {cbuf : Shared α} :
      pstep (.wret n) s.cbuf p = some (cbuf, p') →
      FStep s (.readRet n) (.write p) { s with cbuf, inner := s.inner + n } (.write p')
  | seekRet (off whence result : Int) (dest : Nat) :
      FStep s (.seekRet result dest) (.innerSeek off whence)
        { s.innerSeek result dest with served := s.served ++ [⟨s.reqs, off, whence, result⟩] }
        (.storeResult result)
  | spurious {p p' : PPc α} {cbuf : Shared α} : pstep .spurious s.cbuf p = some (cbuf, p') →
      FStep s .spurious (.write p) { s with cbuf } (.write p')
  | wake : s.fillerCond = .parked →
      FStep s .spurious .parked { s with fillerCond := .woken } .parked

theorem fstep_cases {a : FAct α} {s s' : SlBuffer α} {f f' : FPc α}
    (h : fstep a s f = some (s', f')) : FStep s a f s' f' := by
  cases a with
  | go => exact .go h
  | store i b =>
      cases f with
      | write p =>
          obtain ⟨⟨cbuf, p'⟩, hp, heq⟩ := Option.map_eq_some_iff.mp h
          obtain ⟨rfl, rfl⟩ := Prod.mk.inj heq
          exact .store hp
      | _ => cases h
  | readRet n =>
      cases f with
      | write p =>
          obtain ⟨⟨cbuf, p'⟩, hp, heq⟩ := Option.map_eq_some_iff.mp h
          obtain ⟨rfl, rfl⟩ := Prod.mk.inj heq
          exact .readRet hp
      | _ => cases h
  | seekRet result dest =>
      cases f with
      | innerSeek off whence =>
          obtain ⟨rfl, rfl⟩ := Prod.mk.inj (Option.some.inj h)
          exact .seekRet off whence result dest
      | _ => cases h
  | spurious =>
      cases f with
      | write p =>
          obtain ⟨⟨cbuf, p'⟩, hp, heq⟩ := Option.map_eq_some_iff.mp h
          obtain ⟨rfl, rfl⟩ := Prod.mk.inj heq
          exact .spurious hp
      | parked =>
          obtain ⟨hparked, h⟩ := Option.ite_none_right_eq_some.mp h
          obtain ⟨rfl, rfl⟩ := Prod.mk.inj (Option.some.inj h)
          exact .wake hparked
      | _ => cases h

/-! ## The user -/

/-- Program points of the user. A read call keeps the offset at which it
began; `off` and `whence` are the arguments of the seek call, and `found`
the branch it took on `filler_started`. -/
inductive UPc (α : Type) where
  | idle
  -- sl_buffer_read_cb
  | read (tell₀ : Int) (q : CPc α)
  | readPos (tell₀ : Int) (k : RCall α)
  -- sl_buffer_seek_cb
  | storeOff (off whence : Int)
  | storeWhence (off whence : Int)
  | seekLock (off whence : Int)
  | testStarted (off whence : Int)
  | setReq (off whence : Int)
  | closeRead (off whence : Int) (q : CPc α)
  | signalFiller (off whence : Int)
  | testReq (off whence : Int)
  | wait (off whence : Int)
  | parked (off whence : Int)
  | innerSeek (off whence : Int)
  | storeResult (off whence result : Int)
  | seekUnlock (off whence : Int) (found : Bool)
  | testResult (off whence : Int) (found : Bool)
  | storePos (off whence : Int) (found : Bool)
  | storeEof (off whence : Int) (found : Bool)
  | retResult (off whence : Int) (found : Bool)
  -- sl_buffer_destroy
  | endLock
  | endClose (q : CPc α)
  | endSignal
  | endUnlock
  | join
  | destroyed

/-- The calls a user makes. -/
inductive UCall (α : Type) where
  | read (buf : ByteMem α) (len : Nat)
  | seek (off whence : Int)
  | destroy

def UCall.start (s : SlBuffer α) : UCall α → UPc α
  | .read buf len => .read s.pos ((CCall.read buf len).start s.cbuf)
  | .seek off whence => .storeOff off whence
  | .destroy => .endLock

/-- One step of the user's program. -/
def ugo (s : SlBuffer α) : UPc α → Option (SlBuffer α × UPc α)
  | .idle => none
  | .read tell₀ (.ret k) =>
      some (if k.read < k.len then { s with eof := true } else s, .readPos tell₀ k)
  | .read tell₀ q => (cgo s.cbuf q).map fun (cbuf, q) => ({ s with cbuf }, .read tell₀ q)
  | .readPos tell₀ k =>
      some ({ s with pos := s.pos + k.read
                     trace := s.trace ++ [.read tell₀ k.len (k.buf.read 0 k.read) s.epoch
                       (s.pos + k.read) s.eof] },
        .idle)
  | .storeOff off whence => some ({ s with seekOff := off }, .storeWhence off whence)
  | .storeWhence off whence => some ({ s with seekWhence := whence }, .seekLock off whence)
  | .seekLock off whence =>
      if s.seekLock = none then
        some ({ s with seekLock := some .consumer }, .testStarted off whence)
      else none
  | .testStarted off whence =>
      some (s, if s.fillerStarted then .setReq off whence else .innerSeek off whence)
  | .setReq off whence =>
      some ({ s with seekRequested := true, reqs := s.reqs + 1 },
        .closeRead off whence (CCall.closeRead.start s.cbuf))
  | .closeRead off whence (.closed _) => some (s, .signalFiller off whence)
  | .closeRead off whence q =>
      (cgo s.cbuf q).map fun (cbuf, q) => ({ s with cbuf }, .closeRead off whence q)
  | .signalFiller off whence =>
      some ({ s with fillerCond := s.fillerCond.signal }, .testReq off whence)
  -- while (seek_requested) pthread_cond_wait(seek_cond, seek_lock)
  | .testReq off whence =>
      some (s, if s.seekRequested then .wait off whence else .seekUnlock off whence true)
  | .wait off whence =>
      some ({ s with seekLock := none, userCond := .parked }, .parked off whence)
  | .parked off whence =>
      if s.userCond = .woken ∧ s.seekLock = none then
        some ({ s with seekLock := some .consumer, userCond := .out }, .testReq off whence)
      else none
  | .innerSeek _ _ => none
  | .storeResult off whence result =>
      some ({ s with seekResult := result }, .seekUnlock off whence false)
  | .seekUnlock off whence found =>
      some ({ s with seekLock := none }, .testResult off whence found)
  | .testResult off whence found =>
      some (s, if s.seekResult = 0 then .storePos off whence found
        else .retResult off whence found)
  | .storePos off whence found => some ({ s with pos := off }, .storeEof off whence found)
  | .storeEof off whence found =>
      some ({ s with eof := false
                     trace := s.trace ++ [.seek off whence 0 found s.pos false] }, .idle)
  | .retResult off whence found =>
      some ({ s with trace := s.trace ++ [.seek off whence s.seekResult found s.pos s.eof] },
        .idle)
  | .endLock =>
      if s.seekLock = none then
        some ({ s with seekLock := some .consumer }, .endClose (CCall.closeRead.start s.cbuf))
      else none
  | .endClose (.closed _) => some (s, .endSignal)
  | .endClose q => (cgo s.cbuf q).map fun (cbuf, q) => ({ s with cbuf }, .endClose q)
  | .endSignal => some ({ s with fillerCond := s.fillerCond.signal }, .endUnlock)
  | .endUnlock => some ({ s with seekLock := none }, .join)
  | .join => if s.exited then some (s, .destroyed) else none
  | .destroyed => none

/-- Actions of the user: begin a call, the next step of the program, the
return of an inner seek made by the user, a spurious wake-up. -/
inductive UAct (α : Type) where
  | call (r : UCall α)
  | go
  | seekRet (result : Int) (dest : Nat)
  | spurious

def ustep (a : UAct α) (s : SlBuffer α) (u : UPc α) : Option (SlBuffer α × UPc α) :=
  match a with
  | .go => ugo s u
  | .call r =>
      match u with
      | .idle => some (s, r.start s)
      | _ => none
  | .seekRet result dest =>
      match u with
      | .innerSeek off whence =>
          some ({ s.innerSeek result dest with direct := s.direct ++ [(off, whence, result)] },
            .storeResult off whence result)
      | _ => none
  | .spurious =>
      match u with
      | .read tell₀ q =>
          (cstep .spurious s.cbuf q).map fun (cbuf, q) => ({ s with cbuf }, .read tell₀ q)
      | .parked off whence =>
          if s.userCond = .parked then some ({ s with userCond := .woken }, .parked off whence)
          else none
      | _ => none

/-- What a step of the user is. -/
inductive UStep (s : SlBuffer α) : UAct α → UPc α → SlBuffer α → UPc α → Prop
  | go {s' : SlBuffer α} {u u' : UPc α} : ugo s u = some (s', u') → UStep s .go u s' u'
  | call (r : UCall α) : UStep s (.call r) .idle s (r.start s)
  | seekRet (off whence result : Int) (dest : Nat) :
      UStep s (.seekRet result dest) (.innerSeek off whence)
        { s.innerSeek result dest with direct := s.direct ++ [(off, whence, result)] }
        (.storeResult off whence result)
  | spurious {tell₀ : Int} {q q' : CPc α} {cbuf : Shared α} :
      cstep .spurious s.cbuf q = some (cbuf, q') →
      UStep s .spurious (.read tell₀ q) { s with cbuf } (.read tell₀ q')
  | wake {off whence : Int} : s.userCond = .parked →
      UStep s .spurious (.parked off whence) { s with userCond := .woken } (.parked off whence)

theorem ustep_cases {a : UAct α} {s s' : SlBuffer α} {u u' : UPc α}
    (h : ustep a s u = some (s', u')) : UStep s a u s' u' := by
  cases a with
  | go => exact .go h
  | call r =>
      cases u with
      | idle =>
          obtain ⟨rfl, rfl⟩ := Prod.mk.inj (Option.some.inj h)
          exact .call r
      | _ => cases h
  | seekRet result dest =>
      cases u with
      | innerSeek off whence =>
          obtain ⟨rfl, rfl⟩ := Prod.mk.inj (Option.some.inj h)
          exact .seekRet off whence result dest
      | _ => cases h
  | spurious =>
      cases u with
      | read tell₀ q =>
          obtain ⟨⟨cbuf, q'⟩, hq, heq⟩ := Option.map_eq_some_iff.mp h
          obtain ⟨rfl, rfl⟩ := Prod.mk.inj heq
          exact .spurious hq
      | parked off whence =>
          obtain ⟨hparked, h⟩ := Option.ite_none_right_eq_some.mp h
          obtain ⟨rfl, rfl⟩ := Prod.mk.inj (Option.some.inj h)
          exact .wake hparked
      | _ => cases h

/-! ## The system -/

structure Stream (α : Type) where
  s : SlBuffer α
  f : FPc α
  u : UPc α

inductive BAct (α : Type) where
  | filler (a : FAct α)
  | user (a : UAct α)

def streamStep (a : BAct α) (x : Stream α) : Option (Stream α) :=
  match a with
  | .filler a => (fstep a x.s x.f).map fun (s, f) => { x with s, f }
  | .user a => (ustep a x.s x.u).map fun (s, u) => { x with s, u }

/-- The stream of `sl_buffer_create2(c, step)` when
`sl_buffer_threaded_fill_buffer` has created the filler thread. -/
def buffered (α : Type) (c step : Nat) : Lts (Stream α) (BAct α) where
  init x := ∃ env others s, slBufferCreate2 env others c step = some s
    ∧ env.Allocatable (c + 1) ∧ x = ⟨s, .startLock, .idle⟩
  step := streamStep

theorem slBufferCreate2_eq {env : InitEnv α} {others : Bool} {c step : Nat} {s : SlBuffer α}
    (h : slBufferCreate2 env others c step = some s) :
    ∃ cb, circbufInit env c = some cb ∧ 0 < step ∧ s = .fresh cb step := by
  unfold slBufferCreate2 at h
  cases hcb : circbufInit env c with
  | none => simp [hcb] at h
  | some cb =>
      simp only [hcb] at h
      split_ifs at h with hsize hstep hothers
      exact ⟨cb, rfl, Nat.pos_of_ne_zero hstep, (Option.some.inj h).symm⟩

/-- A step of the system is a step of one of its threads. -/
theorem streamStep_cases {a : BAct α} {x x' : Stream α} (h : streamStep a x = some x') :
    (∃ b, a = .filler b ∧ fstep b x.s x.f = some (x'.s, x'.f) ∧ x'.u = x.u)
      ∨ (∃ b, a = .user b ∧ ustep b x.s x.u = some (x'.s, x'.u) ∧ x'.f = x.f) := by
  cases a with
  | filler b =>
      obtain ⟨⟨s, f⟩, hb, rfl⟩ := Option.map_eq_some_iff.mp h
      exact .inl ⟨b, rfl, hb, rfl⟩
  | user b =>
      obtain ⟨⟨s, u⟩, hb, rfl⟩ := Option.map_eq_some_iff.mp h
      exact .inr ⟨b, rfl, hb, rfl⟩

/-- The filler goes on to the request, or leaves its loop. -/
theorem fgo_loopQ {s s' : SlBuffer α} {f : FPc α} (h : fgo s .loopQ = some (s', f)) :
    (s.seekRequested = true ∧ s' = s ∧ f = .ifReq)
      ∨ (¬ s.seekRequested = true ∧ s' = { s with exited := true } ∧ f = .exited) := by
  have h : (if s.seekRequested then some (s, .ifReq)
      else some ({ s with exited := true }, .exited)) = some (s', f) := h
  split at h
  · next hreq =>
    obtain ⟨rfl, rfl⟩ := Prod.mk.inj (Option.some.inj h)
    exact .inl ⟨hreq, rfl, rfl⟩
  · next hreq =>
    obtain ⟨rfl, rfl⟩ := Prod.mk.inj (Option.some.inj h)
    exact .inr ⟨hreq, rfl, rfl⟩

/-! ## Steps inside a circbuf call

A step of a thread inside a circbuf call is a step of that call, or its
return. -/

section Calls

variable {s s' : SlBuffer α}

theorem fgo_write_eq {p : PPc α} (hret : ∀ k n, p ≠ .ret k n) :
    fgo s (.write p) = (pgo s.cbuf p).map fun (cbuf, p') => ({ s with cbuf }, .write p') := by
  cases p with
  | ret k n => exact absurd rfl (hret k n)
  | _ => rfl

theorem fgo_closeWrite_eq {p : PPc α} (hclosed : ∀ code, p ≠ .closed code) :
    fgo s (.closeWrite p)
      = (pgo s.cbuf p).map fun (cbuf, p') => ({ s with cbuf }, .closeWrite p') := by
  cases p with
  | closed code => exact absurd rfl (hclosed code)
  | _ => rfl

theorem ugo_read_eq {tell₀ : Int} {q : CPc α} (hret : ∀ k, q ≠ .ret k) :
    ugo s (.read tell₀ q)
      = (cgo s.cbuf q).map fun (cbuf, q') => ({ s with cbuf }, .read tell₀ q') := by
  cases q with
  | ret k => exact absurd rfl (hret k)
  | _ => rfl

theorem ugo_closeRead_eq {off whence : Int} {q : CPc α} (hclosed : ∀ code, q ≠ .closed code) :
    ugo s (.closeRead off whence q)
      = (cgo s.cbuf q).map fun (cbuf, q') => ({ s with cbuf }, .closeRead off whence q') := by
  cases q with
  | closed code => exact absurd rfl (hclosed code)
  | _ => rfl

theorem ugo_endClose_eq {q : CPc α} (hclosed : ∀ code, q ≠ .closed code) :
    ugo s (.endClose q)
      = (cgo s.cbuf q).map fun (cbuf, q') => ({ s with cbuf }, .endClose q') := by
  cases q with
  | closed code => exact absurd rfl (hclosed code)
  | _ => rfl

theorem fgo_write {p : PPc α} {f : FPc α} (h : fgo s (.write p) = some (s', f)) :
    (∃ k written, p = .ret k written ∧ s' = s
        ∧ f = if written < s.stepSize then .endLock else .loopR)
      ∨ (∀ k n, p ≠ .ret k n)
        ∧ ∃ cbuf p', pgo s.cbuf p = some (cbuf, p') ∧ s' = { s with cbuf } ∧ f = .write p' := by
  by_cases hret : ∃ k written, p = .ret k written
  · obtain ⟨k, written, rfl⟩ := hret
    obtain ⟨rfl, rfl⟩ := Prod.mk.inj (Option.some.inj h)
    exact .inl ⟨k, written, rfl, rfl, rfl⟩
  · have hret : ∀ k n, p ≠ .ret k n := fun k n heq => hret ⟨k, n, heq⟩
    rw [fgo_write_eq hret] at h
    obtain ⟨⟨cbuf, p'⟩, hp, heq⟩ := Option.map_eq_some_iff.mp h
    obtain ⟨rfl, rfl⟩ := Prod.mk.inj heq
    exact .inr ⟨hret, cbuf, p', hp, rfl, rfl⟩

theorem fgo_closeWrite {p : PPc α} {f : FPc α} (h : fgo s (.closeWrite p) = some (s', f)) :
    (∃ code, p = .closed code ∧ s' = s ∧ f = .testRead)
      ∨ (∀ code, p ≠ .closed code)
        ∧ ∃ cbuf p', pgo s.cbuf p = some (cbuf, p') ∧ s' = { s with cbuf }
          ∧ f = .closeWrite p' := by
  by_cases hclosed : ∃ code, p = .closed code
  · obtain ⟨code, rfl⟩ := hclosed
    obtain ⟨rfl, rfl⟩ := Prod.mk.inj (Option.some.inj h)
    exact .inl ⟨code, rfl, rfl, rfl⟩
  · have hclosed : ∀ code, p ≠ .closed code := fun code heq => hclosed ⟨code, heq⟩
    rw [fgo_closeWrite_eq hclosed] at h
    obtain ⟨⟨cbuf, p'⟩, hp, heq⟩ := Option.map_eq_some_iff.mp h
    obtain ⟨rfl, rfl⟩ := Prod.mk.inj heq
    exact .inr ⟨hclosed, cbuf, p', hp, rfl, rfl⟩

theorem ugo_read {tell₀ : Int} {q : CPc α} {u : UPc α} (h : ugo s (.read tell₀ q) = some (s', u)) :
    (∃ k, q = .ret k ∧ s' = (if k.read < k.len then { s with eof := true } else s)
        ∧ u = .readPos tell₀ k)
      ∨ (∀ k, q ≠ .ret k)
        ∧ ∃ cbuf q', cgo s.cbuf q = some (cbuf, q') ∧ s' = { s with cbuf }
          ∧ u = .read tell₀ q' := by
  by_cases hret : ∃ k, q = .ret k
  · obtain ⟨k, rfl⟩ := hret
    obtain ⟨rfl, rfl⟩ := Prod.mk.inj (Option.some.inj h)
    exact .inl ⟨k, rfl, rfl, rfl⟩
  · have hret : ∀ k, q ≠ .ret k := fun k heq => hret ⟨k, heq⟩
    rw [ugo_read_eq hret] at h
    obtain ⟨⟨cbuf, q'⟩, hq, heq⟩ := Option.map_eq_some_iff.mp h
    obtain ⟨rfl, rfl⟩ := Prod.mk.inj heq
    exact .inr ⟨hret, cbuf, q', hq, rfl, rfl⟩

theorem ugo_closeRead {off whence : Int} {q : CPc α} {u : UPc α}
    (h : ugo s (.closeRead off whence q) = some (s', u)) :
    (∃ code, q = .closed code ∧ s' = s ∧ u = .signalFiller off whence)
      ∨ (∀ code, q ≠ .closed code)
        ∧ ∃ cbuf q', cgo s.cbuf q = some (cbuf, q') ∧ s' = { s with cbuf }
          ∧ u = .closeRead off whence q' := by
  by_cases hclosed : ∃ code, q = .closed code
  · obtain ⟨code, rfl⟩ := hclosed
    obtain ⟨rfl, rfl⟩ := Prod.mk.inj (Option.some.inj h)
    exact .inl ⟨code, rfl, rfl, rfl⟩
  · have hclosed : ∀ code, q ≠ .closed code := fun code heq => hclosed ⟨code, heq⟩
    rw [ugo_closeRead_eq hclosed] at h
    obtain ⟨⟨cbuf, q'⟩, hq, heq⟩ := Option.map_eq_some_iff.mp h
    obtain ⟨rfl, rfl⟩ := Prod.mk.inj heq
    exact .inr ⟨hclosed, cbuf, q', hq, rfl, rfl⟩

theorem ugo_endClose {q : CPc α} {u : UPc α} (h : ugo s (.endClose q) = some (s', u)) :
    (∃ code, q = .closed code ∧ s' = s ∧ u = .endSignal)
      ∨ (∀ code, q ≠ .closed code)
        ∧ ∃ cbuf q', cgo s.cbuf q = some (cbuf, q') ∧ s' = { s with cbuf }
          ∧ u = .endClose q' := by
  by_cases hclosed : ∃ code, q = .closed code
  · obtain ⟨code, rfl⟩ := hclosed
    obtain ⟨rfl, rfl⟩ := Prod.mk.inj (Option.some.inj h)
    exact .inl ⟨code, rfl, rfl, rfl⟩
  · have hclosed : ∀ code, q ≠ .closed code := fun code heq => hclosed ⟨code, heq⟩
    rw [ugo_endClose_eq hclosed] at h
    obtain ⟨⟨cbuf, q'⟩, hq, heq⟩ := Option.map_eq_some_iff.mp h
    obtain ⟨rfl, rfl⟩ := Prod.mk.inj heq
    exact .inr ⟨hclosed, cbuf, q', hq, rfl, rfl⟩

/-- A step of the filler inside `circbuf_write2`, read forwards. -/
theorem fgo_write_of {p p' : PPc α} {cbuf : Shared α} (hret : ∀ k n, p ≠ .ret k n)
    (hp : pgo s.cbuf p = some (cbuf, p')) :
    fgo s (.write p) = some ({ s with cbuf }, .write p') := by
  rw [fgo_write_eq hret, hp]
  rfl

theorem fgo_closeWrite_of {p p' : PPc α} {cbuf : Shared α} (hclosed : ∀ code, p ≠ .closed code)
    (hp : pgo s.cbuf p = some (cbuf, p')) :
    fgo s (.closeWrite p) = some ({ s with cbuf }, .closeWrite p') := by
  rw [fgo_closeWrite_eq hclosed, hp]
  rfl

theorem ugo_read_of {tell₀ : Int} {q q' : CPc α} {cbuf : Shared α} (hret : ∀ k, q ≠ .ret k)
    (hq : cgo s.cbuf q = some (cbuf, q')) :
    ugo s (.read tell₀ q) = some ({ s with cbuf }, .read tell₀ q') := by
  rw [ugo_read_eq hret, hq]
  rfl

theorem ugo_closeRead_of {off whence : Int} {q q' : CPc α} {cbuf : Shared α}
    (hclosed : ∀ code, q ≠ .closed code) (hq : cgo s.cbuf q = some (cbuf, q')) :
    ugo s (.closeRead off whence q) = some ({ s with cbuf }, .closeRead off whence q') := by
  rw [ugo_closeRead_eq hclosed, hq]
  rfl

theorem ugo_endClose_of {q q' : CPc α} {cbuf : Shared α} (hclosed : ∀ code, q ≠ .closed code)
    (hq : cgo s.cbuf q = some (cbuf, q')) :
    ugo s (.endClose q) = some ({ s with cbuf }, .endClose q') := by
  rw [ugo_endClose_eq hclosed, hq]
  rfl

end Calls

/-! ## What the filler leaves alone -/

/-- The filler leaves the user's fields and the parameters of the seek; it
stores the result and clears the request at one point each. -/
structure FillFrame (s s' : SlBuffer α) (f : FPc α) : Prop where
  pos : s'.pos = s.pos
  eof : s'.eof = s.eof
  seekOff : s'.seekOff = s.seekOff
  seekWhence : s'.seekWhence = s.seekWhence
  direct : s'.direct = s.direct
  trace : s'.trace = s.trace
  stored : ∀ result, f = .storeResult result → s'.seekResult = result
  result : (∀ result, f ≠ .storeResult result) → s'.seekResult = s.seekResult
  cleared : f = .clearReq → s'.seekRequested = false
  req : f ≠ .clearReq → s'.seekRequested = s.seekRequested

theorem fgo_frame {s s' : SlBuffer α} {f f' : FPc α} (h : fgo s f = some (s', f')) :
    FillFrame s s' f := by
  cases f with
  | startLock | seekLock | endLock | parked =>
      obtain ⟨_, h⟩ := Option.ite_none_right_eq_some.mp h
      obtain ⟨rfl, rfl⟩ := Prod.mk.inj (Option.some.inj h)
      exact ⟨rfl, rfl, rfl, rfl, rfl, rfl, nofun, fun _ => rfl, nofun, fun _ => rfl⟩
  | loopQ =>
      rcases fgo_loopQ h with ⟨-, rfl, rfl⟩ | ⟨-, rfl, rfl⟩ <;>
        exact ⟨rfl, rfl, rfl, rfl, rfl, rfl, nofun, fun _ => rfl, nofun, fun _ => rfl⟩
  | write p =>
      obtain ⟨k, written, -, rfl, rfl⟩ | ⟨-, cbuf, p', -, rfl, rfl⟩ := fgo_write h <;>
        exact ⟨rfl, rfl, rfl, rfl, rfl, rfl, nofun, fun _ => rfl, nofun, fun _ => rfl⟩
  | closeWrite p =>
      obtain ⟨code, -, rfl, rfl⟩ | ⟨-, cbuf, p', -, rfl, rfl⟩ := fgo_closeWrite h <;>
        exact ⟨rfl, rfl, rfl, rfl, rfl, rfl, nofun, fun _ => rfl, nofun, fun _ => rfl⟩
  | innerSeek off whence | exited => cases h
  | storeResult result =>
      obtain ⟨rfl, rfl⟩ := Prod.mk.inj (Option.some.inj h)
      exact ⟨rfl, rfl, rfl, rfl, rfl, rfl, fun _ hr => FPc.storeResult.inj hr,
        fun hr => absurd rfl (hr result), nofun, fun _ => rfl⟩
  | clearReq =>
      obtain ⟨rfl, rfl⟩ := Prod.mk.inj (Option.some.inj h)
      exact ⟨rfl, rfl, rfl, rfl, rfl, rfl, nofun, fun _ => rfl, fun _ => rfl,
        fun hr => absurd rfl hr⟩
  | _ =>
      obtain ⟨rfl, rfl⟩ := Prod.mk.inj (Option.some.inj h)
      exact ⟨rfl, rfl, rfl, rfl, rfl, rfl, nofun, fun _ => rfl, nofun, fun _ => rfl⟩

theorem fstep_frame {a : FAct α} {s s' : SlBuffer α} {f f' : FPc α}
    (h : fstep a s f = some (s', f')) : FillFrame s s' f := by
  cases fstep_cases h with
  | go h => exact fgo_frame h
  | store hp | readRet hp | spurious hp =>
      exact ⟨rfl, rfl, rfl, rfl, rfl, rfl, nofun, fun _ => rfl, nofun, fun _ => rfl⟩
  | seekRet off whence result dest =>
      exact ⟨rfl, rfl, rfl, rfl, rfl, rfl, nofun, fun _ => rfl, nofun, fun _ => rfl⟩
  | wake hparked =>
      exact ⟨rfl, rfl, rfl, rfl, rfl, rfl, nofun, fun _ => rfl, nofun, fun _ => rfl⟩

end Streamlike
