import Streamlike.Buffer
import Streamlike.CircbufShort

/-!
# The user's calls and their events

A returned call leaves one event in the trace (`ustep_trace`), made from
the locals of its frame. A history variable lists the calls as the user
began them, and `events_of_calls` compares the two: the events are those
of the calls, in their order and with their arguments, but for the call in
progress.
-/

namespace Streamlike

variable {α : Type} {c step : Nat}

/-! ## The events of a run -/

/-- The event of a call that returns in this step. -/
inductive CallReturns (s : SlBuffer α) : UPc α → Event α → Prop
  | read (tell₀ : Int) (k : RCall α) :
      CallReturns s (.readPos tell₀ k)
        (.read tell₀ k.len (k.buf.read 0 k.read) s.epoch (s.pos + k.read) s.eof)
  | sought (off whence : Int) (found : Bool) :
      CallReturns s (.storeEof off whence found) (.seek off whence 0 found s.pos false)
  | failed (off whence : Int) (found : Bool) :
      CallReturns s (.retResult off whence found)
        (.seek off whence s.seekResult found s.pos s.eof)

theorem ugo_trace {s s' : SlBuffer α} {u u' : UPc α} (h : ugo s u = some (s', u')) :
    s'.trace = s.trace ∨ ∃ e, s'.trace = s.trace ++ [e] ∧ CallReturns s u e := by
  cases u with
  | readPos tell₀ k =>
      obtain ⟨rfl, rfl⟩ := Prod.mk.inj (Option.some.inj h)
      exact .inr ⟨_, rfl, .read tell₀ k⟩
  | storeEof off whence found =>
      obtain ⟨rfl, rfl⟩ := Prod.mk.inj (Option.some.inj h)
      exact .inr ⟨_, rfl, .sought off whence found⟩
  | retResult off whence found =>
      obtain ⟨rfl, rfl⟩ := Prod.mk.inj (Option.some.inj h)
      exact .inr ⟨_, rfl, .failed off whence found⟩
  | read tell₀ q =>
      rcases ugo_read h with ⟨k, -, rfl, -⟩ | ⟨-, cbuf, q', -, rfl, -⟩
      · split <;> exact .inl rfl
      · exact .inl rfl
  | closeRead off whence q =>
      rcases ugo_closeRead h with ⟨code, -, rfl, -⟩ | ⟨-, cbuf, q', -, rfl, -⟩ <;> exact .inl rfl
  | endClose q =>
      rcases ugo_endClose h with ⟨code, -, rfl, -⟩ | ⟨-, cbuf, q', -, rfl, -⟩ <;> exact .inl rfl
  | seekLock off whence | parked off whence | endLock | join =>
      obtain ⟨_, h⟩ := Option.ite_none_right_eq_some.mp h
      obtain ⟨rfl, rfl⟩ := Prod.mk.inj (Option.some.inj h)
      exact .inl rfl
  | idle | innerSeek off whence | destroyed => cases h
  | _ =>
      obtain ⟨rfl, rfl⟩ := Prod.mk.inj (Option.some.inj h)
      exact .inl rfl

theorem ustep_trace {a : UAct α} {s s' : SlBuffer α} {u u' : UPc α}
    (h : ustep a s u = some (s', u')) :
    s'.trace = s.trace ∨ ∃ e, s'.trace = s.trace ++ [e] ∧ CallReturns s u e := by
  cases ustep_cases h with
  | go h => exact ugo_trace h
  | call | seekRet | spurious | wake => exact .inl rfl

/-! ## The calls -/

/-- What a call asks for. -/
inductive Asked where
  | read (len : Nat)
  | seek (off whence : Int)
deriving Repr, DecidableEq

def UCall.asked : UCall α → Option Asked
  | .read _ len => some (.read len)
  | .seek off whence => some (.seek off whence)
  | .destroy => none

def Event.asked : Event α → Asked
  | .read _ len _ _ _ _ => .read len
  | .seek off whence _ _ _ _ => .seek off whence

/-- What the call in progress has been asked for. -/
def UPc.asked : UPc α → Option Asked
  | .read _ q => q.call.map fun k => .read k.len
  | .readPos _ k => some (.read k.len)
  | .storeOff off whence | .storeWhence off whence | .seekLock off whence
  | .testStarted off whence | .setReq off whence | .closeRead off whence _
  | .signalFiller off whence | .testReq off whence | .wait off whence | .parked off whence
  | .innerSeek off whence | .storeResult off whence _ | .seekUnlock off whence _
  | .testResult off whence _ | .storePos off whence _ | .storeEof off whence _
  | .retResult off whence _ => some (.seek off whence)
  | _ => none

/-- What has been asked for, in calls that have returned and in the one in
progress. -/
def asksSoFar (s : SlBuffer α) (u : UPc α) : List Asked :=
  s.trace.map Event.asked ++ u.asked.toList

/-- A step inside a call, or its return. -/
theorem ugo_asks {s s' : SlBuffer α} {u u' : UPc α}
    (h : ugo s u = some (s', u')) : asksSoFar s' u' = asksSoFar s u := by
  cases u with
  | idle | innerSeek off whence | destroyed => cases h
  | read tell₀ q =>
      rcases ugo_read h with ⟨k, rfl, rfl, rfl⟩ | ⟨hret, cbuf, q', hq, rfl, rfl⟩
      · split <;> rfl
      · have hargs := congrArg (Option.map fun a => Asked.read a.1) (cgo_call hq hret)
        rw [Option.map_map, Option.map_map] at hargs
        exact congrArg (fun r => s.trace.map Event.asked ++ r.toList) hargs
  | readPos tell₀ k | storeEof off whence found | retResult off whence found =>
      obtain ⟨rfl, rfl⟩ := Prod.mk.inj (Option.some.inj h)
      simp [asksSoFar, UPc.asked, Event.asked]
  | closeRead off whence q =>
      rcases ugo_closeRead h with ⟨code, -, rfl, rfl⟩ | ⟨-, cbuf, q', -, rfl, rfl⟩ <;> rfl
  | endClose q =>
      rcases ugo_endClose h with ⟨code, -, rfl, rfl⟩ | ⟨-, cbuf, q', -, rfl, rfl⟩ <;> rfl
  | seekLock off whence | parked off whence | endLock | join =>
      obtain ⟨_, h⟩ := Option.ite_none_right_eq_some.mp h
      obtain ⟨rfl, rfl⟩ := Prod.mk.inj (Option.some.inj h)
      rfl
  | testStarted off whence | testReq off whence | testResult off whence found =>
      obtain ⟨rfl, rfl⟩ := Prod.mk.inj (Option.some.inj h)
      split <;> rfl
  | _ =>
      obtain ⟨rfl, rfl⟩ := Prod.mk.inj (Option.some.inj h)
      rfl

/-- The user's calls so far. -/
def UCall.watch (a : BAct α) (_ : Stream α) (calls : List (UCall α)) : List (UCall α) :=
  match a with
  | .user (.call r) => calls ++ [r]
  | _ => calls

/-- The stream and the list of the user's calls. -/
def bufferedCalls (α : Type) (c step : Nat) : Lts (Stream α × List (UCall α)) (BAct α) :=
  (buffered α c step).watched [] UCall.watch

theorem ustep_asks {a : UAct α} {x : Stream α} {s s' : SlBuffer α} {u u' : UPc α}
    {calls : List (UCall α)} (hi : calls.filterMap UCall.asked = asksSoFar s u)
    (h : ustep a s u = some (s', u')) :
    (UCall.watch (.user a) x calls).filterMap UCall.asked = asksSoFar s' u' := by
  cases ustep_cases h with
  | go h => exact hi.trans (ugo_asks h).symm
  | call r =>
      have hidle : calls.filterMap UCall.asked = s.trace.map Event.asked :=
        hi.trans (List.append_nil _)
      rw [UCall.watch, List.filterMap_append, hidle]
      cases r <;> rfl
  | seekRet off whence result dest => exact hi
  | spurious hq =>
      cases cstep_cases hq with
      | spurious hparked => exact hi
  | wake hparked => exact hi

/-- The events of the trace are those of the calls, in their order and with
their arguments, but for the call in progress. -/
theorem events_of_calls {C : Stream α → BAct α → Prop} {x : Stream α} {calls : List (UCall α)}
    (h : (bufferedCalls α c step).Reach (fun y a => C y.1 a) (x, calls)) :
    calls.filterMap UCall.asked = asksSoFar x.s x.u := by
  refine h.invariant (I := fun y => y.2.filterMap UCall.asked = asksSoFar y.1.s y.1.u) ?_ ?_
  · rintro ⟨_, _⟩ ⟨⟨env, others, s, hs, -, rfl⟩, rfl⟩
    obtain ⟨cb, -, -, rfl⟩ := slBufferCreate2_eq hs
    rfl
  rintro ⟨x, calls⟩ a ⟨x', calls'⟩ - hi - hstep
  obtain ⟨_, hs, heq⟩ := Option.map_eq_some_iff.mp hstep
  obtain ⟨rfl, rfl⟩ := Prod.mk.inj heq
  rcases streamStep_cases hs with ⟨b, rfl, hb, hu⟩ | ⟨b, rfl, hb, -⟩
  · dsimp only [asksSoFar] at hi ⊢
    rw [hu, (fstep_frame hb).trace]
    exact hi
  · exact ustep_asks (x := x) hi hb

/-- The frame of a read in progress has the length of the last call. -/
theorem read_of_calls {C : Stream α → BAct α → Prop} {x : Stream α} {calls : List (UCall α)}
    (h : (bufferedCalls α c step).Reach (fun y a => C y.1 a) (x, calls)) {buf : ByteMem α}
    {len n : Nat} (hlast : calls.getLast? = some (.read buf len))
    (hu : x.u.asked = some (.read n)) : n = len := by
  have hall := events_of_calls h
  obtain ⟨before, rfl⟩ := List.getLast?_eq_some_iff.mp hlast
  rw [List.filterMap_append, asksSoFar, hu] at hall
  obtain ⟨-, heq⟩ := List.append_inj' hall rfl
  exact (Asked.read.inj (List.cons.inj heq).1).symm

end Streamlike
