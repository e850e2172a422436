import Streamlike.BufferSeek
import Streamlike.CircbufShort
import Streamlike.CircbufWake

/-!
# The circular buffer inside the stream

The filler is one producer and the user one consumer of the circular
buffer, except that the filler also resets it. The reset is exclusive
(`SeekInv.parked`): the user is in its wait, outside every circbuf call,
so the invariants of the two-thread buffer hold between its four stores
but for the history, which it starts afresh (`CircInv`).
-/

namespace Streamlike

variable {α : Type} {c step : Nat}

/-- The filler's place in its circbuf call. -/
def FPc.circ : FPc α → PPc α
  | .write p | .closeWrite p => p
  | _ => .idle

/-- The user's place in its circbuf call. -/
def UPc.circ : UPc α → CPc α
  | .read _ q | .closeRead _ _ q | .endClose q => q
  | _ => .idle

/-- Before the first step of a call, or after its last. -/
def PPc.outside : PPc α → Bool
  | .idle | .entry _ | .ret _ _ | .close | .closed _ => true
  | _ => false

def CPc.outside : CPc α → Bool
  | .idle | .loop _ | .ret _ | .close | .closed _ => true
  | _ => false

/-- Before the first step of a call. -/
def CPc.begins : CPc α → Bool
  | .idle | .loop _ | .close => true
  | _ => false

theorem CPc.begins_outside {q : CPc α} (h : q.begins = true) : q.outside = true := by
  cases q <;> first | rfl | cases h

/-! ## The calls in progress

The filler is only ever inside `circbuf_write2` and `circbuf_close_write`,
the user inside `circbuf_read` and `circbuf_close_read`. -/

/-- The write call in progress. -/
def PPc.call : PPc α → Option (WCall α)
  | .entry k | .loop k | .lockR k | .full1 k | .full2 k _ | .full3 k | .full4 k | .full5 k
  | .wait k | .parked k | .unlockR k | .check k | .someW k | .someR k _ | .copy k _ _ _
  | .writer k _ _ _ _ | .lockW k _ _ _ | .storeW k _ _ _ | .signalW k _ | .unlockW k _
  | .ret k _ => some k
  | _ => none

/-- The bytes fetched and not yet published. -/
def PPc.inflight : PPc α → List α
  | .copy k b m _ => b.read k.written m.ret
  | .writer _ _ _ got _ | .lockW _ _ _ got | .storeW _ _ _ got => got
  | _ => []

/-- Inside `circbuf_write2(.., len)`. -/
structure PPc.Write2 (len : Nat) (p : PPc α) : Prop where
  call : ∃ k, p.call = some k ∧ k.src = .writer ∧ k.blocking = true ∧ k.len = len
  nocopy : ∀ k b m todo, p ≠ .copy k b m todo

def PPc.closing : PPc α → Bool
  | .close | .closeLock | .closeStore | .closeSignal | .closeUnlock | .closed _ => true
  | _ => false

/-- A step of `circbuf_write2`: only the writer adds to the bytes fetched. -/
theorem pgo_write2 {len : Nat} {s s' : Shared α} {p p' : PPc α} (hw : p.Write2 len)
    (h : pgo s p = some (s', p')) (hret : ∀ k n, p ≠ .ret k n) :
    p'.Write2 len ∧ s'.produced ++ p'.inflight = s.produced ++ p.inflight := by
  obtain ⟨⟨k, hk, hcall⟩, hn⟩ := hw
  cases p with
  | copy k b m todo => exact absurd rfl (hn k b m todo)
  | ret k n => exact absurd rfl (hret k n)
  | lockR k | parked k | lockW k woff n got =>
      obtain rfl := Option.some.inj hk
      obtain ⟨_, h⟩ := Option.ite_none_right_eq_some.mp h
      obtain ⟨rfl, rfl⟩ := Prod.mk.inj (Option.some.inj h)
      exact ⟨⟨⟨_, rfl, hcall⟩, nofun⟩, rfl⟩
  | entry k | loop k | full2 k woff | full3 k | full4 k | full5 k | check k =>
      obtain rfl := Option.some.inj hk
      obtain ⟨rfl, rfl⟩ := Prod.mk.inj (Option.some.inj h)
      refine ⟨⟨⟨_, ?_, hcall⟩, ?_⟩, ?_⟩ <;> split_ifs <;> first | rfl | nofun
  | unlockW k n =>
      obtain rfl := Option.some.inj hk
      obtain ⟨rfl, rfl⟩ := Prod.mk.inj (Option.some.inj h)
      rw [if_pos hcall.2.1]
      exact ⟨⟨⟨_, rfl, hcall⟩, nofun⟩, rfl⟩
  | someR k woff =>
      obtain rfl := Option.some.inj hk
      obtain ⟨rfl, rfl⟩ := Prod.mk.inj (Option.some.inj h)
      rw [hcall.1]
      exact ⟨⟨⟨_, rfl, hcall⟩, nofun⟩, rfl⟩
  | writer k woff total got todo =>
      obtain rfl := Option.some.inj hk
      cases todo with
      | nil =>
          obtain ⟨rfl, rfl⟩ := Prod.mk.inj (Option.some.inj h)
          exact ⟨⟨⟨_, rfl, hcall⟩, nofun⟩, rfl⟩
      | cons r todo => cases h
  | storeW k woff n got =>
      obtain rfl := Option.some.inj hk
      obtain ⟨rfl, rfl⟩ := Prod.mk.inj (Option.some.inj h)
      exact ⟨⟨⟨_, rfl, hcall⟩, nofun⟩, List.append_nil _⟩
  | full1 k | wait k | unlockR k | someW k | signalW k n =>
      obtain rfl := Option.some.inj hk
      obtain ⟨rfl, rfl⟩ := Prod.mk.inj (Option.some.inj h)
      exact ⟨⟨⟨_, rfl, hcall⟩, nofun⟩, rfl⟩
  | _ => cases hk

/-- The bytes that the writer delivers in a step. -/
def PAct.fetched (s : Shared α) : PAct α → PPc α → List α
  | .wret n, .writer _ _ _ _ (r :: _) => s.cb.data.read r.there n
  | _, _ => []

theorem pstep_write2 {len : Nat} {a : PAct α} {s s' : Shared α} {p p' : PPc α}
    (hw : p.Write2 len) (h : pstep a s p = some (s', p')) (hret : ∀ k n, p ≠ .ret k n) :
    p'.Write2 len
      ∧ s'.produced ++ p'.inflight = s.produced ++ p.inflight ++ a.fetched s p := by
  cases pstep_cases h with
  | go h =>
      obtain ⟨hw', hfetch⟩ := pgo_write2 hw h hret
      exact ⟨hw', by rw [hfetch]; exact (List.append_nil _).symm⟩
  | call r =>
      obtain ⟨⟨k, hk, -⟩, -⟩ := hw
      cases hk
  | store b hi => exact ⟨⟨hw.call, nofun⟩, (List.append_nil _).symm⟩
  | wret hn =>
      obtain ⟨⟨k', hk, hcall⟩, -⟩ := hw
      obtain rfl := Option.some.inj hk
      split <;> exact ⟨⟨⟨_, rfl, hcall⟩, nofun⟩, (List.append_assoc _ _ _).symm⟩
  | spurious hparked => exact ⟨⟨hw.call, nofun⟩, (List.append_nil _).symm⟩

/-- A step of `circbuf_close_write`. -/
theorem pgo_closing {s s' : Shared α} {p p' : PPc α} (hp : p.closing = true)
    (h : pgo s p = some (s', p')) (hclosed : ∀ code, p ≠ .closed code) :
    p'.closing = true ∧ s'.produced = s.produced := by
  cases p with
  | closed code => exact absurd rfl (hclosed code)
  | close =>
      obtain ⟨rfl, rfl⟩ := Prod.mk.inj (Option.some.inj h)
      split <;> exact ⟨rfl, rfl⟩
  | closeLock =>
      obtain ⟨_, h⟩ := Option.ite_none_right_eq_some.mp h
      obtain ⟨rfl, rfl⟩ := Prod.mk.inj (Option.some.inj h)
      exact ⟨rfl, rfl⟩
  | closeStore | closeSignal | closeUnlock =>
      obtain ⟨rfl, rfl⟩ := Prod.mk.inj (Option.some.inj h)
      exact ⟨rfl, rfl⟩
  | _ => cases hp

/-- Inside `circbuf_read(.., len)`, begun with `pre` released. -/
def CPc.Read (q : CPc α) (len : Nat) (pre : List α) : Prop :=
  ∃ k, q.call = some k ∧ k.blocking = true ∧ k.len = len ∧ k.pre = pre

def CPc.closing : CPc α → Bool
  | .close | .closeLock | .closeStore | .closeSignal | .closeUnlock | .closed _ => true
  | _ => false

/-- A step of `circbuf_read`. -/
theorem cgo_read {len : Nat} {pre : List α} {s s' : Shared α} {q q' : CPc α}
    (hr : q.Read len pre) (h : cgo s q = some (s', q')) (hret : ∀ k, q ≠ .ret k) :
    q'.Read len pre := by
  obtain ⟨k, hk, hblock, rfl, rfl⟩ := hr
  have hargs := cgo_call h hret
  rw [hk, Option.map_some] at hargs
  obtain ⟨k', hk', heq⟩ := Option.map_eq_some_iff.mp hargs
  obtain ⟨hlen, hrest⟩ := Prod.mk.inj heq
  obtain ⟨hblock', hpre⟩ := Prod.mk.inj hrest
  exact ⟨k', hk', hblock'.trans hblock, hlen, hpre⟩

/-- A step of `circbuf_close_read`. -/
theorem cgo_closing {s s' : Shared α} {q q' : CPc α} (hq : q.closing = true)
    (h : cgo s q = some (s', q')) (hclosed : ∀ code, q ≠ .closed code) :
    q'.closing = true ∧ s'.released = s.released := by
  cases q with
  | closed code => exact absurd rfl (hclosed code)
  | close =>
      obtain ⟨rfl, rfl⟩ := Prod.mk.inj (Option.some.inj h)
      split <;> exact ⟨rfl, rfl⟩
  | closeLock =>
      obtain ⟨_, h⟩ := Option.ite_none_right_eq_some.mp h
      obtain ⟨rfl, rfl⟩ := Prod.mk.inj (Option.some.inj h)
      exact ⟨rfl, rfl⟩
  | closeStore | closeSignal | closeUnlock =>
      obtain ⟨rfl, rfl⟩ := Prod.mk.inj (Option.some.inj h)
      exact ⟨rfl, rfl⟩
  | _ => cases hq

/-- `circbuf_write2` leaves `wdone`. -/
theorem write2_wdone {len : Nat} {a : PAct α} {s s' : Shared α} {p p' : PPc α}
    (hw : p.Write2 len) (h : pstep a s p = some (s', p')) : s'.cb.wdone = s.cb.wdone := by
  cases pstep_publishes h with
  | none _ hwdone _ => exact hwdone
  | woff _ _ hwdone => exact hwdone
  | wdone hp _ _ _ =>
      obtain ⟨⟨k, hk, -⟩, -⟩ := hw
      rw [hp] at hk
      cases hk

/-- The filler's call in progress. -/
def FPc.CallOk (len : Nat) : FPc α → Prop
  | .write p => p.Write2 len
  | .closeWrite p => p.closing = true
  | _ => True

/-- The user's call in progress. -/
def UPc.CallOk : UPc α → Prop
  | .read _ q => ∃ len pre, q.Read len pre
  | .closeRead _ _ q | .endClose q => q.closing = true
  | _ => True

/-! ## Steps of the two threads -/

/-- What a step of the filler is to the circular buffer: a step of its
call, nothing, or one store of the reset. -/
inductive FCirc (s s' : SlBuffer α) (f f' : FPc α) : Prop
  | circ {b : PAct α} (h : pstep b s.cbuf f.circ = some (s'.cbuf, f'.circ))
      (hf : f.resetting = false) (hf' : f'.resetting = false)
      (hcall : f.CallOk s.stepSize → f'.CallOk s'.stepSize)
  | move (h : s'.cbuf = s.cbuf) (ho : f.circ.outside = true) (ho' : f'.circ.outside = true)
      (hf : f.resetting = false) (hf' : f' ≠ .reset3) (hcall : f'.CallOk s'.stepSize)
  | reset (h : fgo s f = some (s', f')) (hf : f.resetting = true)

theorem startWrite_callOk (s : SlBuffer α) : (FPc.startWrite s).CallOk s.stepSize :=
  ⟨⟨_, rfl, rfl, rfl, rfl⟩, nofun⟩

theorem fgo_circ {s s' : SlBuffer α} {f f' : FPc α} (h : fgo s f = some (s', f')) :
    FCirc s s' f f' := by
  cases f with
  | reset0 | reset1 | reset2 | reset3 => exact .reset h rfl
  | startLock | seekLock | parked =>
      obtain ⟨_, h⟩ := Option.ite_none_right_eq_some.mp h
      obtain ⟨rfl, rfl⟩ := Prod.mk.inj (Option.some.inj h)
      exact .move rfl rfl rfl rfl (fun h => by cases h) trivial
  | endLock =>
      obtain ⟨_, h⟩ := Option.ite_none_right_eq_some.mp h
      obtain ⟨rfl, rfl⟩ := Prod.mk.inj (Option.some.inj h)
      exact .move rfl rfl rfl rfl (fun h => by cases h) rfl
  | loopQ =>
      rcases fgo_loopQ h with ⟨-, rfl, rfl⟩ | ⟨-, rfl, rfl⟩ <;>
        exact .move rfl rfl rfl rfl (fun h => by cases h) trivial
  | ifReq =>
      obtain ⟨rfl, rfl⟩ := Prod.mk.inj (Option.some.inj h)
      split
      · exact .move rfl rfl rfl rfl (fun h => by cases h) trivial
      · exact .move rfl rfl rfl rfl (fun h => by cases h) (startWrite_callOk s)
  | seekUnlock =>
      obtain ⟨rfl, rfl⟩ := Prod.mk.inj (Option.some.inj h)
      exact .move rfl rfl rfl rfl (fun h => by cases h) (startWrite_callOk s)
  | loopR | testResult | testRead =>
      obtain ⟨rfl, rfl⟩ := Prod.mk.inj (Option.some.inj h)
      split <;> exact .move rfl rfl rfl rfl (fun h => by cases h) trivial
  | write p =>
      rcases fgo_write h with ⟨k, written, rfl, rfl, rfl⟩ | ⟨hret, cbuf, p', hp, rfl, rfl⟩
      · split <;> exact .move rfl rfl rfl rfl (fun h => by cases h) trivial
      · exact .circ (b := .go) hp rfl rfl fun hcall => (pgo_write2 hcall hp hret).1
  | closeWrite p =>
      rcases fgo_closeWrite h with ⟨code, rfl, rfl, rfl⟩ | ⟨hclosed, cbuf, p', hp, rfl, rfl⟩
      · exact .move rfl rfl rfl rfl (fun h => by cases h) trivial
      · exact .circ (b := .go) hp rfl rfl fun hcall => (pgo_closing hcall hp hclosed).1
  | innerSeek off whence => cases h
  | exited => cases h
  | _ =>
      obtain ⟨rfl, rfl⟩ := Prod.mk.inj (Option.some.inj h)
      exact .move rfl rfl rfl rfl (fun h => by cases h) trivial

theorem fstep_circ {a : FAct α} {s s' : SlBuffer α} {f f' : FPc α}
    (h : fstep a s f = some (s', f')) : FCirc s s' f f' := by
  cases fstep_cases h with
  | go h => exact fgo_circ h
  | store hp | readRet hp | spurious hp =>
      refine .circ hp rfl rfl fun hcall => (pstep_write2 hcall hp ?_).1
      rintro k n rfl
      cases hp
  | seekRet off whence result dest => exact .move rfl rfl rfl rfl nofun trivial
  | wake hparked => exact .move rfl rfl rfl rfl nofun trivial

/-- What a step of the user is to the circular buffer. -/
inductive UCirc (s s' : SlBuffer α) (u u' : UPc α) : Prop
  | circ {b : CAct α} (h : cstep b s.cbuf u.circ = some (s'.cbuf, u'.circ))
      (hlen : s'.stepSize = s.stepSize)
      (hu : ∀ off whence, u ≠ .parked off whence) (hcall : u.CallOk → u'.CallOk)
  | move (h : s'.cbuf = s.cbuf) (hlen : s'.stepSize = s.stepSize)
      (ho : u.circ.outside = true) (ho' : u'.circ.begins = true)
      (hstart : ∀ l, u'.circ.sofar = some l → l = s.cbuf.released) (hcall : u'.CallOk)

theorem ugo_circ {s s' : SlBuffer α} {u u' : UPc α} (h : ugo s u = some (s', u')) :
    UCirc s s' u u' := by
  cases u with
  | idle => cases h
  | read tell₀ q =>
      rcases ugo_read h with ⟨k, rfl, rfl, rfl⟩ | ⟨hret, cbuf, q', hq, rfl, rfl⟩
      · split <;> exact .move rfl rfl rfl rfl nofun trivial
      · refine .circ (b := .go) hq rfl nofun ?_
        rintro ⟨len, pre, hread⟩
        exact ⟨len, pre, cgo_read hread hq hret⟩
  | closeRead off whence q =>
      rcases ugo_closeRead h with ⟨code, rfl, rfl, rfl⟩ | ⟨hclosed, cbuf, q', hq, rfl, rfl⟩
      · exact .move rfl rfl rfl rfl nofun trivial
      · exact .circ (b := .go) hq rfl nofun fun hcall => (cgo_closing hcall hq hclosed).1
  | endClose q =>
      rcases ugo_endClose h with ⟨code, rfl, rfl, rfl⟩ | ⟨hclosed, cbuf, q', hq, rfl, rfl⟩
      · exact .move rfl rfl rfl rfl nofun trivial
      · exact .circ (b := .go) hq rfl nofun fun hcall => (cgo_closing hcall hq hclosed).1
  | seekLock off whence | parked off whence =>
      obtain ⟨_, h⟩ := Option.ite_none_right_eq_some.mp h
      obtain ⟨rfl, rfl⟩ := Prod.mk.inj (Option.some.inj h)
      exact .move rfl rfl rfl rfl nofun trivial
  | endLock =>
      obtain ⟨_, h⟩ := Option.ite_none_right_eq_some.mp h
      obtain ⟨rfl, rfl⟩ := Prod.mk.inj (Option.some.inj h)
      exact .move rfl rfl rfl rfl nofun rfl
  | setReq off whence =>
      obtain ⟨rfl, rfl⟩ := Prod.mk.inj (Option.some.inj h)
      exact .move rfl rfl rfl rfl nofun rfl
  | join =>
      obtain ⟨_, h⟩ := Option.ite_none_right_eq_some.mp h
      obtain ⟨rfl, rfl⟩ := Prod.mk.inj (Option.some.inj h)
      exact .move rfl rfl rfl rfl nofun trivial
  | testStarted off whence | testReq off whence =>
      obtain ⟨rfl, rfl⟩ := Prod.mk.inj (Option.some.inj h)
      split <;> exact .move rfl rfl rfl rfl nofun trivial
  | testResult off whence found =>
      obtain ⟨rfl, rfl⟩ := Prod.mk.inj (Option.some.inj h)
      split <;> exact .move rfl rfl rfl rfl nofun trivial
  | innerSeek off whence => cases h
  | destroyed => cases h
  | _ =>
      obtain ⟨rfl, rfl⟩ := Prod.mk.inj (Option.some.inj h)
      exact .move rfl rfl rfl rfl nofun trivial

theorem ustep_circ {a : UAct α} {s s' : SlBuffer α} {u u' : UPc α}
    (h : ustep a s u = some (s', u')) : UCirc s s' u u' := by
  cases ustep_cases h with
  | go h => exact ugo_circ h
  | call r =>
      cases r with
      | read buf len =>
          refine .move rfl rfl rfl rfl (fun l hl => ?_) ⟨len, _, _, rfl, rfl, rfl, rfl⟩
          obtain rfl := Option.some.inj hl
          exact List.append_nil _
      | seek off whence => exact .move rfl rfl rfl rfl nofun trivial
      | destroy => exact .move rfl rfl rfl rfl nofun trivial
  | seekRet off whence result dest => exact .move rfl rfl rfl rfl nofun trivial
  | spurious hq =>
      refine .circ hq rfl nofun ?_
      rintro ⟨len, pre, hread⟩
      cases cstep_cases hq with
      | spurious hparked => exact ⟨len, pre, hread⟩
  | wake hparked => exact .move rfl rfl rfl rfl nofun trivial

/-! ## The invariant -/

structure CircInv (c : Nat) (s : SlBuffer α) (f : FPc α) (u : UPc α) : Prop where
  size : s.cbuf.cb.size = c + 1
  ring : f ≠ .reset3 → RingOk c s.cbuf
  woff : f = .reset3 → s.cbuf.cb.woff = 0
  prod : ProdOk s.cbuf f.circ
  cons : ConsOk s.cbuf u.circ
  wake : WakeOk s.cbuf f.circ u.circ
  fcall : f.CallOk s.stepSize
  ucall : u.CallOk

theorem ProdOk.outside {s : Shared α} {p p' : PPc α} (hp : ProdOk s p)
    (ho : p.outside = true) (ho' : p'.outside = true) : ProdOk s p' where
  wlock := hp.wlock.trans (by cases p <;> cases ho <;> cases p' <;> cases ho' <;> exact .rfl)
  rlock := hp.rlock.trans (by cases p <;> cases ho <;> cases p' <;> cases ho' <;> exact .rfl)
  rcond := hp.rcond.trans (by cases p <;> cases ho <;> cases p' <;> cases ho' <;> exact .rfl)
  at_ := by cases p' <;> trivial

theorem ConsOk.outside {s : Shared α} {q q' : CPc α} (hq : ConsOk s q)
    (ho : q.outside = true) (ho' : q'.outside = true)
    (hso : ∀ l, q'.sofar = some l → l = s.released) : ConsOk s q' where
  wlock := hq.wlock.trans (by cases q <;> cases ho <;> cases q' <;> cases ho' <;> exact .rfl)
  rlock := hq.rlock.trans (by cases q <;> cases ho <;> cases q' <;> cases ho' <;> exact .rfl)
  wcond := hq.wcond.trans (by cases q <;> cases ho <;> cases q' <;> cases ho' <;> exact .rfl)
  at_ := by cases q' <;> trivial
  sofar := fun l hl => (hso l hl).symm

theorem PPc.outside_signalsW {p : PPc α} (ho : p.outside = true) : p.signalsW = false := by
  cases p <;> first | rfl | cases ho

theorem CPc.outside_signalsR {q : CPc α} (ho : q.outside = true) : q.signalsR = false := by
  cases q <;> first | rfl | cases ho

theorem WakeOk.outsideP {s : Shared α} {p p' : PPc α} {q : CPc α} (hw : WakeOk s p q)
    (ho : p.outside = true) : WakeOk s p' q where
  wcond := fun h => .inl ((hw.wcond h).resolve_right (by simp [PPc.outside_signalsW ho]))
  rcond := hw.rcond

theorem WakeOk.outsideQ {s : Shared α} {p : PPc α} {q q' : CPc α} (hw : WakeOk s p q)
    (ho : q.outside = true) : WakeOk s p q' where
  wcond := hw.wcond
  rcond := fun h => .inl ((hw.rcond h).resolve_right (by simp [CPc.outside_signalsR ho]))

/-- With both threads outside, nobody is parked. -/
theorem WakeOk.idle {s : Shared α} {p : PPc α} {q : CPc α} (hw : s.wcond = .out)
    (hr : s.rcond = .out) : WakeOk s p q where
  wcond := fun h => by rw [hw] at h; cases h
  rcond := fun h => by rw [hr] at h; cases h

/-- Outside its wait, the user never meets a half-reset buffer. -/
theorem SeekInv.not_reset3 {s : SlBuffer α} {f : FPc α} {u : UPc α} (hx : SeekInv s f u)
    (hu : ∀ off whence, u ≠ .parked off whence) : f ≠ .reset3 := by
  rintro rfl
  obtain ⟨off, whence, hpark⟩ := hx.parked rfl rfl
  exact hu off whence hpark

theorem fstep_circInv {a : FAct α} {s s' : SlBuffer α} {f f' : FPc α} {u : UPc α}
    (hx : SeekInv s f u) (hi : CircInv c s f u) (h : fstep a s f = some (s', f')) :
    CircInv c s' f' u := by
  cases fstep_circ h with
  | circ hb hf hf' hcall =>
      have hring := hi.ring (by rintro rfl; cases hf)
      obtain ⟨hring', hprod', hframe⟩ := pstep_ok hring hi.prod hb
      have hne : f' ≠ .reset3 := by rintro rfl; cases hf'
      exact ⟨hframe.size.trans hi.size, fun _ => hring', fun hr => absurd hr hne, hprod',
        hi.cons.stable hframe, hi.wake.pstep hring hi.prod hb, hcall hi.fcall, hi.ucall⟩
  | move hs ho ho' hf hf' hcall =>
      have hring := hi.ring (by rintro rfl; cases hf)
      rw [show s' = { s' with cbuf := s.cbuf } by rw [← hs]]
      exact ⟨hi.size, fun _ => hring, fun hr => absurd hr hf', hi.prod.outside ho ho', hi.cons,
        hi.wake.outsideP ho, hcall, hi.ucall⟩
  | reset hgo hf =>
      have hparked : ∃ off whence, u = .parked off whence := by
        cases f with
        | reset0 | reset1 | reset2 | reset3 => exact hx.parked rfl rfl
        | _ => cases hf
      obtain ⟨off, whence, rfl⟩ := hparked
      have hwcond : s.cbuf.wcond = .out := hi.cons.wcond.mpr rfl
      cases f with
      | reset0 | reset1 =>
          have hring := hi.ring nofun
          have hrcond : s.cbuf.rcond = .out := hi.prod.rcond.mpr rfl
          obtain ⟨rfl, rfl⟩ := Prod.mk.inj (Option.some.inj hgo)
          exact ⟨hi.size, fun _ => ⟨hring.size, ⟨hring.wf.woff_lt, hring.wf.roff_le⟩, hring.history,
            hring.view⟩, nofun, ⟨hi.prod.wlock, hi.prod.rlock, hi.prod.rcond, trivial⟩,
            ⟨hi.cons.wlock, hi.cons.rlock, hi.cons.wcond, trivial, nofun⟩,
            .idle hwcond hrcond, trivial, trivial⟩
      | reset2 =>
          have hrcond : s.cbuf.rcond = .out := hi.prod.rcond.mpr rfl
          obtain ⟨rfl, rfl⟩ := Prod.mk.inj (Option.some.inj hgo)
          exact ⟨hi.size, fun hne => absurd rfl hne, fun _ => rfl,
            ⟨hi.prod.wlock, hi.prod.rlock, hi.prod.rcond, trivial⟩,
            ⟨hi.cons.wlock, hi.cons.rlock, hi.cons.wcond, trivial, nofun⟩,
            .idle hwcond hrcond, trivial, trivial⟩
      | reset3 =>
          have hrcond : s.cbuf.rcond = .out := hi.prod.rcond.mpr rfl
          have hzero : s.cbuf.cb.woff = 0 := hi.woff rfl
          obtain ⟨rfl, rfl⟩ := Prod.mk.inj (Option.some.inj hgo)
          refine ⟨hi.size, fun _ => ⟨hi.size, ⟨?_, Nat.zero_le _⟩, ?_, nofun⟩, nofun,
            ⟨hi.prod.wlock, hi.prod.rlock, hi.prod.rcond, trivial⟩,
            ⟨hi.cons.wlock, hi.cons.rlock, hi.cons.wcond, trivial, nofun⟩,
            .idle hwcond hrcond, trivial, trivial⟩
          · show s.cbuf.cb.woff < s.cbuf.cb.size
            rw [hzero, hi.size]
            exact Nat.succ_pos c
          · have hlen : circbufGetLength { s.cbuf.cb with roff := 0 } = 0 := by
              rw [circbufGetLength_eq]
              dsimp only
              rw [hzero, ByteRing.used_self]
            exact (List.eq_nil_of_length_eq_zero ((length_unread _).trans hlen)).symm
      | _ => cases hf

theorem ustep_circInv {a : UAct α} {s s' : SlBuffer α} {f : FPc α} {u u' : UPc α}
    (hx : SeekInv s f u) (hi : CircInv c s f u) (h : ustep a s u = some (s', u')) :
    CircInv c s' f u' := by
  cases ustep_circ h with
  | circ hb hlen hu hcall =>
      have hf := hx.not_reset3 hu
      have hring := hi.ring hf
      obtain ⟨hring', hcons', hframe⟩ := cstep_ok hring hi.cons hb
      exact ⟨hframe.size.trans hi.size, fun _ => hring', fun hr => absurd hr hf,
        hi.prod.stable hframe, hcons', hi.wake.cstep hring hi.cons hb,
        hlen ▸ hi.fcall, hcall hi.ucall⟩
  | move hs hlen ho ho' hstart hcall =>
      rw [show s' = { s' with cbuf := s.cbuf } by rw [← hs]]
      exact ⟨hi.size, hi.ring, hi.woff, hi.prod, hi.cons.outside ho (CPc.begins_outside ho') hstart,
        hi.wake.outsideQ ho, hlen ▸ hi.fcall, hcall⟩

theorem circInv_of_reach {ok : Stream α → BAct α → Prop} {x : Stream α}
    (h : (buffered α c step).Reach ok x) : CircInv c x.s x.f x.u := by
  refine h.invariant (I := fun x => CircInv c x.s x.f x.u) ?_ ?_
  · rintro _ ⟨env, others, s, hs, halloc, rfl⟩
    obtain ⟨cb, hcb, -, rfl⟩ := slBufferCreate2_eq hs
    have hinv := Inv.start hcb halloc
    exact ⟨hinv.ring.size, fun _ => hinv.ring, nofun, hinv.prod, hinv.cons, ⟨nofun, nofun⟩, trivial,
      trivial⟩
  intro x a x' hreach hi _ hstep
  have hx := seekInv_of_reach hreach
  rcases streamStep_cases hstep with ⟨b, rfl, hb, hu⟩ | ⟨b, rfl, hb, hf⟩
  · rw [hu]; exact fstep_circInv hx hi hb
  · rw [hf]; exact ustep_circInv hx hi hb

end Streamlike
