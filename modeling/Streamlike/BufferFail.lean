import Streamlike.BufferData
import Streamlike.BufferLive

/-!
# A failed seek

The claim of a failed seek is that it leaves the stream as it was
(`Stream.Undisturbed`). It does when the user makes the inner seek itself,
before the filler has set `filler_started`. A seek that the filler serves
has closed reading first, and only the reset of a successful one opens it
again: the filler then finds reading closed, closes writing and leaves its
loop (`failed_seek_disturbs`).

That the stream goes on as if the failed calls had not been made is a
simulation: a run with them is shadowed by a run without them, whose user
stays between calls while a call is on its way to fail. The shadow takes
the first steps of a seek in one go, once it is known that it will not
fail there.
-/

namespace Streamlike

variable {α : Type} {c step : Nat}

/-! ## What a failed call reports -/

/-- A seek that returned an error. -/
def Event.failed : Event α → Bool
  | .seek _ _ code _ _ _ => code != 0
  | .read .. => false

/-- What `eof` says after a call. -/
def Event.eof : Event α → Bool
  | .read _ _ _ _ _ eof | .seek _ _ _ _ _ eof => eof

def lastEof (trace : List (Event α)) : Bool := trace.foldl (fun _ e => e.eof) false

/-- The seek calls that made the inner seek themselves: their arguments
and return values. -/
def directs (trace : List (Event α)) : List (Int × Int × Int) :=
  trace.filterMap fun
    | .seek off whence code false _ _ => some (off, whence, code)
    | _ => none

/-- After a failed call, `tell` and `eof` are what they were. -/
def Unmoved (trace : List (Event α)) : Prop :=
  ∀ pre off whence code found tell eof post,
    trace = pre ++ .seek off whence code found tell eof :: post → code ≠ 0 →
      tell = lastTell pre ∧ eof = lastEof pre

theorem lastEof_append (trace : List (Event α)) (e : Event α) : lastEof (trace ++ [e]) = e.eof := by
  rw [lastEof, List.foldl_append]
  rfl

theorem directs_append (trace : List (Event α)) (e : Event α) :
    directs (trace ++ [e]) = directs trace ++ directs [e] := List.filterMap_append

theorem Unmoved.append {trace : List (Event α)} (h : Unmoved trace) (e : Event α)
    (he : ∀ off whence code found tell eof, e = .seek off whence code found tell eof → code ≠ 0 →
      tell = lastTell trace ∧ eof = lastEof trace) : Unmoved (trace ++ [e]) := by
  intro pre off whence code found tell eof post heq hcode
  rcases List.eq_nil_or_concat' post with rfl | ⟨post, last, rfl⟩
  · obtain ⟨rfl, hlast⟩ := List.append_inj' heq rfl
    exact he off whence code found tell eof (List.cons.inj hlast).1 hcode
  · rw [← List.cons_append, ← List.append_assoc] at heq
    obtain ⟨rfl, -⟩ := List.append_inj' heq rfl
    exact h pre off whence code found tell eof post rfl hcode

/-- The user's inner seeks against its calls returned. -/
def DirectOk (s : SlBuffer α) : UPc α → Prop
  | .storeResult off whence result => s.direct = directs s.trace ++ [(off, whence, result)]
  | .seekUnlock off whence false | .testResult off whence false | .storePos off whence false
  | .storeEof off whence false | .retResult off whence false =>
      s.direct = directs s.trace ++ [(off, whence, s.seekResult)]
  | _ => s.direct = directs s.trace

/-- What the calls report, and where the fields stand between them. -/
structure CallInv (s : SlBuffer α) (u : UPc α) : Prop where
  tell : (∀ off whence found, u ≠ .storeEof off whence found) → s.pos = lastTell s.trace
  stored : ∀ off whence found, u = .storeEof off whence found → s.pos = off
  eof : (∀ tell₀ k, u ≠ .readPos tell₀ k) → s.eof = lastEof s.trace
  unmoved : Unmoved s.trace
  direct : DirectOk s u

theorem DirectOk.stable {s s' : SlBuffer α} {u : UPc α} (h : DirectOk s u)
    (hdirect : s'.direct = s.direct) (htrace : s'.trace = s.trace)
    (hresult : u.awaits = false → s'.seekResult = s.seekResult) : DirectOk s' u := by
  unfold DirectOk at h ⊢
  rw [hdirect, htrace]
  cases u with
  | seekUnlock off whence found | testResult off whence found | storePos off whence found
  | storeEof off whence found | retResult off whence found =>
      cases found <;> simpa only [hresult rfl] using h
  | _ => exact h

theorem fstep_call {a : FAct α} {s s' : SlBuffer α} {f f' : FPc α} {u : UPc α}
    (hx : SeekInv s f u) (hi : CallInv s u) (h : fstep a s f = some (s', f')) : CallInv s' u := by
  have hframe := fstep_frame h
  have hresult : u.awaits = false → s'.seekResult = s.seekResult := fun haw => by
    refine hframe.result ?_
    rintro result rfl
    cases (hx.idle haw).2.2
  exact ⟨by rw [hframe.pos, hframe.trace]; exact hi.tell,
    by rw [hframe.pos]; exact hi.stored, by rw [hframe.eof, hframe.trace]; exact hi.eof,
    hframe.trace ▸ hi.unmoved, hi.direct.stable hframe.direct hframe.trace hresult⟩

/-- A step of the user that ends no call and stores neither `pos` nor
`eof`. -/
theorem CallInv.move {s s' : SlBuffer α} {u u' : UPc α} (hi : CallInv s u)
    (hsame : s'.pos = s.pos ∧ s'.eof = s.eof ∧ s'.trace = s.trace)
    (hu : (∀ off whence found, u ≠ .storeEof off whence found) ∧ ∀ tell₀ k, u ≠ .readPos tell₀ k)
    (hu' : ∀ off whence found, u' ≠ .storeEof off whence found) (hdirect : DirectOk s' u') :
    CallInv s' u' where
  tell := fun _ => by rw [hsame.1, hsame.2.2]; exact hi.tell hu.1
  stored := fun off whence found h => absurd h (hu' off whence found)
  eof := fun _ => by rw [hsame.2.1, hsame.2.2]; exact hi.eof hu.2
  unmoved := hsame.2.2 ▸ hi.unmoved
  direct := hdirect

theorem ugo_call {s s' : SlBuffer α} {f : FPc α} {u u' : UPc α} (hx : SeekInv s f u)
    (hi : CallInv s u) (h : ugo s u = some (s', u')) : CallInv s' u' := by
  have hdirect := hi.direct
  cases u with
  | idle | innerSeek off whence | destroyed => cases h
  | read tell₀ q =>
      rcases ugo_read h with ⟨k, rfl, rfl, rfl⟩ | ⟨-, cbuf, q', -, rfl, rfl⟩
      · split
        · exact ⟨fun _ => hi.tell (by simp), by simp, fun hne => absurd rfl (hne tell₀ k),
            hi.unmoved, hdirect⟩
        · exact hi.move ⟨rfl, rfl, rfl⟩ ⟨by simp, by simp⟩ (by simp) hdirect
      · exact hi.move ⟨rfl, rfl, rfl⟩ ⟨by simp, by simp⟩ (by simp) hdirect
  | readPos tell₀ k =>
      obtain ⟨rfl, rfl⟩ := Prod.mk.inj (Option.some.inj h)
      refine ⟨fun _ => ?_, by simp, fun _ => by rw [lastEof_append]; rfl,
        hi.unmoved.append _ (by simp), ?_⟩
      · rw [lastTell_append, Event.tell, ← hi.tell (by simp), ByteMem.length_read]
      · exact hdirect.trans (by rw [directs_append]; exact (List.append_nil _).symm)
  | closeRead off whence q =>
      obtain ⟨code, rfl, rfl, rfl⟩ | ⟨-, cbuf, q', -, rfl, rfl⟩ := ugo_closeRead h <;>
        exact hi.move ⟨rfl, rfl, rfl⟩ ⟨by simp, by simp⟩ (by simp) hdirect
  | endClose q =>
      obtain ⟨code, rfl, rfl, rfl⟩ | ⟨-, cbuf, q', -, rfl, rfl⟩ := ugo_endClose h <;>
        exact hi.move ⟨rfl, rfl, rfl⟩ ⟨by simp, by simp⟩ (by simp) hdirect
  | seekLock off whence | parked off whence | endLock | join =>
      obtain ⟨_, h⟩ := Option.ite_none_right_eq_some.mp h
      obtain ⟨rfl, rfl⟩ := Prod.mk.inj (Option.some.inj h)
      exact hi.move ⟨rfl, rfl, rfl⟩ ⟨by simp, by simp⟩ (by simp) hdirect
  | testStarted off whence | testReq off whence =>
      obtain ⟨rfl, rfl⟩ := Prod.mk.inj (Option.some.inj h)
      split <;> exact hi.move ⟨rfl, rfl, rfl⟩ ⟨by simp, by simp⟩ (by simp) hdirect
  | testResult off whence found =>
      obtain ⟨rfl, rfl⟩ := Prod.mk.inj (Option.some.inj h)
      split <;>
        (refine hi.move ⟨rfl, rfl, rfl⟩ ⟨by simp, by simp⟩ (by simp) ?_
         cases found <;> exact hdirect)
  | seekUnlock off whence found =>
      obtain ⟨rfl, rfl⟩ := Prod.mk.inj (Option.some.inj h)
      refine hi.move ⟨rfl, rfl, rfl⟩ ⟨by simp, by simp⟩ (by simp) ?_
      cases found <;> exact hdirect
  | storePos off whence found =>
      obtain ⟨rfl, rfl⟩ := Prod.mk.inj (Option.some.inj h)
      refine ⟨fun hne => absurd rfl (hne off whence found), ?_, fun _ => hi.eof (by simp),
        hi.unmoved, ?_⟩
      · rintro _ _ _ ⟨⟩
        rfl
      · cases found <;> exact hdirect
  | storeEof off whence found =>
      obtain ⟨rfl, rfl⟩ := Prod.mk.inj (Option.some.inj h)
      refine ⟨fun _ => ?_, by simp, fun _ => by rw [lastEof_append]; rfl,
        hi.unmoved.append _ ?_, ?_⟩
      · rw [lastTell_append, Event.tell, if_pos rfl]
        exact hi.stored off whence found rfl
      · rintro _ _ _ _ _ _ ⟨⟩ hcode
        exact absurd rfl hcode
      · have hzero : s.seekResult = 0 := hx.uat
        refine Eq.trans ?_ (directs_append _ _).symm
        cases found with
        | true => exact hdirect.trans (List.append_nil _).symm
        | false => rw [DirectOk, hzero] at hdirect; exact hdirect
  | retResult off whence found =>
      obtain ⟨rfl, rfl⟩ := Prod.mk.inj (Option.some.inj h)
      have htell := hi.tell (by simp)
      have heof := hi.eof (by simp)
      refine ⟨fun _ => ?_, by simp, fun _ => by rw [lastEof_append]; rfl,
        hi.unmoved.append _ ?_, ?_⟩
      · rw [lastTell_append, Event.tell, if_neg hx.uat]
        exact htell
      · rintro _ _ _ _ _ _ ⟨⟩ -
        exact ⟨htell, heof⟩
      · refine Eq.trans ?_ (directs_append _ _).symm
        cases found with
        | true => exact hdirect.trans (List.append_nil _).symm
        | false => exact hdirect
  | _ =>
      obtain ⟨rfl, rfl⟩ := Prod.mk.inj (Option.some.inj h)
      exact hi.move ⟨rfl, rfl, rfl⟩ ⟨by simp, by simp⟩ (by simp) hdirect

theorem ustep_call {a : UAct α} {s s' : SlBuffer α} {f : FPc α} {u u' : UPc α}
    (hx : SeekInv s f u) (hi : CallInv s u) (h : ustep a s u = some (s', u')) :
    CallInv s' u' := by
  cases ustep_cases h with
  | go h => exact ugo_call hx hi h
  | call r => cases r <;> exact hi.move ⟨rfl, rfl, rfl⟩ ⟨nofun, nofun⟩ nofun hi.direct
  | seekRet off whence result dest =>
      refine hi.move ⟨rfl, rfl, rfl⟩ ⟨nofun, nofun⟩ nofun ?_
      exact congrArg (· ++ [(off, whence, result)]) hi.direct
  | spurious hq => exact hi.move ⟨rfl, rfl, rfl⟩ ⟨nofun, nofun⟩ nofun hi.direct
  | wake hparked => exact hi.move ⟨rfl, rfl, rfl⟩ ⟨nofun, nofun⟩ nofun hi.direct

theorem callInv_of_reach {ok : Stream α → BAct α → Prop} {x : Stream α}
    (h : (buffered α c step).Reach ok x) : CallInv x.s x.u := by
  refine h.invariant (I := fun x => CallInv x.s x.u) ?_ ?_
  · rintro _ ⟨env, others, s, hs, -, rfl⟩
    obtain ⟨cb, -, -, rfl⟩ := slBufferCreate2_eq hs
    refine ⟨fun _ => rfl, nofun, fun _ => rfl, ?_, rfl⟩
    intro pre off whence code found tell eof post h
    exact absurd h (by simp [SlBuffer.fresh])
  intro x a x' hreach hi _ hstep
  have hx := seekInv_of_reach hreach
  rcases streamStep_cases hstep with ⟨b, rfl, hb, hu⟩ | ⟨b, rfl, hb, hf⟩
  · rw [hu]; exact fstep_call hx hi hb
  · exact ustep_call hx hi hb

/-! ## The stream without the failed calls -/

/-- What the shadow has of its own: the parameters and the result of its
last seek, the lock, and the history. -/
structure Mask (α : Type) where
  off : Int
  whence : Int
  result : Int
  lock : Option Tid
  direct : List (Int × Int × Int)
  trace : List (Event α)

def SlBuffer.mask (s : SlBuffer α) (m : Mask α) : SlBuffer α :=
  { s with seekOff := m.off, seekWhence := m.whence, seekResult := m.result, seekLock := m.lock,
           direct := m.direct, trace := m.trace }

/-- The filler has stored the result and not cleared the request. -/
def FPc.answered : FPc α → Bool
  | .seekLock | .testResult | .reset0 | .reset1 | .reset2 | .reset3 | .clearReq => true
  | _ => false

/-- A step of the filler and the same step of its shadow. -/
structure FillMask (s s' : SlBuffer α) (f : FPc α) (m m' : Mask α) : Prop where
  off : m'.off = m.off
  whence : m'.whence = m.whence
  trace : m'.trace = m.trace
  stored : ∀ result, f = .storeResult result → m'.result = result
  result : (∀ result, f ≠ .storeResult result) → m'.result = m.result
  lock : m.lock = s.seekLock → m'.lock = s'.seekLock
  /-- The lock is the user's, and free in the shadow. -/
  hidden : f.holdsS = false → s.seekLock ≠ none → m'.lock = m.lock ∧ s'.seekLock = s.seekLock

/-- A step that leaves the lock and the result. -/
theorem FillMask.same {s s' : SlBuffer α} {f : FPc α} {m : Mask α}
    (hf : ∀ result, f ≠ .storeResult result) (hl : s'.seekLock = s.seekLock) :
    FillMask s s' f m m :=
  ⟨rfl, rfl, rfl, fun result h => absurd h (hf result), fun _ => rfl, fun h => h.trans hl.symm,
    fun _ _ => ⟨rfl, hl⟩⟩

theorem FillMask.acquire {s s' : SlBuffer α} {f : FPc α} {m : Mask α} {l : Option Tid}
    (hf : ∀ result, f ≠ .storeResult result) (hfree : s.seekLock = none) (hl : s'.seekLock = l) :
    FillMask s s' f m { m with lock := l } :=
  ⟨rfl, rfl, rfl, fun result h => absurd h (hf result), fun _ => rfl, fun _ => hl.symm,
    fun _ hne => absurd hfree hne⟩

theorem FillMask.release {s s' : SlBuffer α} {f : FPc α} {m : Mask α} {l : Option Tid}
    (hf : ∀ result, f ≠ .storeResult result) (hheld : f.holdsS = true) (hl : s'.seekLock = l) :
    FillMask s s' f m { m with lock := l } :=
  ⟨rfl, rfl, rfl, fun result h => absurd h (hf result), fun _ => rfl, fun _ => hl.symm,
    fun hno => by rw [hheld] at hno; cases hno⟩

theorem fgo_mask {s s' : SlBuffer α} {f f' : FPc α} {m : Mask α} (h : fgo s f = some (s', f'))
    (hfree : s.seekLock = none → m.lock = none)
    (hparams : f.serving = true → m.off = s.seekOff ∧ m.whence = s.seekWhence)
    (hresult : f.answered = true → m.result = s.seekResult) :
    ∃ m', fgo (s.mask m) f = some (s'.mask m', f') ∧ FillMask s s' f m m' := by
  cases f with
  | startLock | seekLock | endLock =>
      obtain ⟨hl, h⟩ := Option.ite_none_right_eq_some.mp h
      obtain ⟨rfl, rfl⟩ := Prod.mk.inj (Option.some.inj h)
      exact ⟨{ m with lock := some .producer }, if_pos (hfree hl), .acquire (by simp) hl rfl⟩
  | parked =>
      obtain ⟨⟨hw, hl⟩, h⟩ := Option.ite_none_right_eq_some.mp h
      obtain ⟨rfl, rfl⟩ := Prod.mk.inj (Option.some.inj h)
      exact ⟨{ m with lock := some .producer }, if_pos ⟨hw, hfree hl⟩, .acquire (by simp) hl rfl⟩
  | startUnlock | seekUnlock | wait | endUnlock =>
      obtain ⟨rfl, rfl⟩ := Prod.mk.inj (Option.some.inj h)
      exact ⟨{ m with lock := none }, rfl, .release (by simp) rfl rfl⟩
  | loopQ =>
      rcases fgo_loopQ h with ⟨hreq, rfl, rfl⟩ | ⟨hreq, rfl, rfl⟩
      · exact ⟨m, if_pos hreq, .same (by simp) rfl⟩
      · exact ⟨m, if_neg hreq, .same (by simp) rfl⟩
  | loadOff =>
      obtain ⟨rfl, rfl⟩ := Prod.mk.inj (Option.some.inj h)
      refine ⟨m, ?_, .same (by simp) rfl⟩
      rw [← (hparams rfl).1]
      rfl
  | loadWhence off =>
      obtain ⟨rfl, rfl⟩ := Prod.mk.inj (Option.some.inj h)
      refine ⟨m, ?_, .same (by simp) rfl⟩
      rw [← (hparams rfl).2]
      rfl
  | storeResult result =>
      obtain ⟨rfl, rfl⟩ := Prod.mk.inj (Option.some.inj h)
      exact ⟨{ m with result }, rfl, rfl, rfl, rfl, fun _ hr => FPc.storeResult.inj hr,
        fun hr => absurd rfl (hr result), id, fun _ _ => ⟨rfl, rfl⟩⟩
  | testResult =>
      obtain ⟨rfl, rfl⟩ := Prod.mk.inj (Option.some.inj h)
      refine ⟨m, ?_, .same (by simp) rfl⟩
      rw [← hresult rfl]
      rfl
  | innerSeek off whence | exited => cases h
  | write p =>
      rcases fgo_write h with ⟨k, written, rfl, rfl, rfl⟩ | ⟨hret, cbuf, p', hp, rfl, rfl⟩
      · exact ⟨m, rfl, .same (by simp) rfl⟩
      · exact ⟨m, fgo_write_of hret hp, .same (by simp) rfl⟩
  | closeWrite p =>
      rcases fgo_closeWrite h with ⟨code, rfl, rfl, rfl⟩ | ⟨hclosed, cbuf, p', hp, rfl, rfl⟩
      · exact ⟨m, rfl, .same (by simp) rfl⟩
      · exact ⟨m, fgo_closeWrite_of hclosed hp, .same (by simp) rfl⟩
  | _ =>
      obtain ⟨rfl, rfl⟩ := Prod.mk.inj (Option.some.inj h)
      exact ⟨m, rfl, .same (by simp) rfl⟩

theorem fstep_mask {a : FAct α} {s s' : SlBuffer α} {f f' : FPc α} {m : Mask α}
    (h : fstep a s f = some (s', f')) (hfree : s.seekLock = none → m.lock = none)
    (hparams : f.serving = true → m.off = s.seekOff ∧ m.whence = s.seekWhence)
    (hresult : f.answered = true → m.result = s.seekResult) :
    ∃ m', fstep a (s.mask m) f = some (s'.mask m', f') ∧ FillMask s s' f m m' := by
  cases fstep_cases h with
  | go h => exact fgo_mask h hfree hparams hresult
  | store hp | readRet hp | spurious hp =>
      exact ⟨m, Option.map_eq_some_iff.mpr ⟨_, hp, rfl⟩, .same nofun rfl⟩
  | seekRet off whence result dest => exact ⟨m, rfl, .same nofun rfl⟩
  | wake hparked => exact ⟨m, if_pos hparked, .same nofun rfl⟩

/-! ## The shadow -/

/-- The user's call is in the shadow as well. -/
def UPc.Shown : UPc α → Prop
  | .storeOff .. | .storeWhence .. | .seekLock .. | .testStarted .. | .innerSeek ..
  | .retResult .. => False
  | .storeResult _ _ result => result = 0
  | _ => True

/-- The user's call is a seek that fails, or that has not been found to go
well; in the shadow the user is between calls. -/
def UPc.Hidden (s : SlBuffer α) : UPc α → Prop
  | .storeOff .. | .storeWhence .. | .seekLock .. | .testStarted .. | .innerSeek .. => True
  | .storeResult _ _ result => result ≠ 0
  | .seekUnlock .. | .testResult .. | .retResult .. => s.seekResult ≠ 0
  | _ => False

/-- The parameters of the seek are in the fields. -/
def UPc.seeking : UPc α → Bool
  | .setReq .. | .closeRead .. | .signalFiller .. | .testReq .. | .wait .. | .parked .. => true
  | _ => false

/-- The user is past its wait, or past its inner seek. -/
def UPc.tail : UPc α → Bool
  | .seekUnlock .. | .testResult .. | .storePos .. | .storeEof .. => true
  | _ => false

/-- The result of the seek in progress is in the field. -/
def Known (s : SlBuffer α) (f : FPc α) (u : UPc α) : Prop :=
  f.answered = true ∨ u.tail = true ∨ u.awaits = true ∧ s.seekRequested = false

/-- The calls that did not fail. -/
def succeeded (trace : List (Event α)) : List (Event α) := trace.filter (!·.failed)

inductive Shadow (s : SlBuffer α) (f : FPc α) (u : UPc α) : Stream α → Prop
  | hidden (m : Mask α) (hu : u.Hidden s) (hlock : m.lock = if u.holdsS then none else s.seekLock)
      (htrace : m.trace = succeeded s.trace) : Shadow s f u ⟨s.mask m, f, .idle⟩
  | shown (m : Mask α) (hu : u.Shown) (hlock : m.lock = s.seekLock)
      (htrace : m.trace = succeeded s.trace)
      (hparams : u.seeking = true → m.off = s.seekOff ∧ m.whence = s.seekWhence)
      (hresult : Known s f u → m.result = 0 ∧ s.seekResult = 0) : Shadow s f u ⟨s.mask m, f, u⟩

/-- The filler's inner seeks succeed; those of the user leave the inner
stream where it was when they fail. -/
def FailsDirect (x : Stream α) : BAct α → Prop
  | .filler (.seekRet result _) => result = 0
  | .user (.seekRet result dest) => result ≠ 0 → dest = x.s.inner
  | _ => True

theorem FailsDirect.serves {x : Stream α} {a : BAct α} (h : FailsDirect x a) :
    ServesSucceed x a := by
  cases a with
  | filler b => cases b <;> exact h
  | user b => trivial

theorem UPc.Hidden.awaits {s : SlBuffer α} {u : UPc α} (h : u.Hidden s) : u.awaits = false := by
  cases u <;> first | rfl | cases h

theorem UPc.awaits_seeking {u : UPc α} (h : u.awaits = true) : u.seeking = true := by
  cases u <;> first | rfl | cases h

theorem FPc.answered_answering {f : FPc α} (h : f.answered = true) : f.answering = true := by
  cases f <;> first | rfl | cases h

/-- The result is in the field after its store only. -/
theorem fstep_answered {a : FAct α} {s s' : SlBuffer α} {f f' : FPc α}
    (h : fstep a s f = some (s', f')) (hf' : f'.answered = true)
    (hne : ∀ result, f ≠ .storeResult result) : f.answered = true := by
  cases fstep_cases h with
  | go h =>
      cases f with
      | seekLock | testResult | reset0 | reset1 | reset2 | reset3 | clearReq => rfl
      | storeResult result => exact absurd rfl (hne result)
      | startLock | endLock | parked =>
          obtain ⟨_, h⟩ := Option.ite_none_right_eq_some.mp h
          obtain ⟨rfl, rfl⟩ := Prod.mk.inj (Option.some.inj h)
          cases hf'
      | loopQ =>
          rcases fgo_loopQ h with ⟨-, -, rfl⟩ | ⟨-, -, rfl⟩ <;> cases hf'
      | loopR | ifReq | testRead =>
          obtain ⟨rfl, rfl⟩ := Prod.mk.inj (Option.some.inj h)
          split at hf' <;> cases hf'
      | write p =>
          rcases fgo_write h with ⟨k, written, -, -, rfl⟩ | ⟨-, cbuf, p', -, -, rfl⟩
          · split at hf' <;> cases hf'
          · cases hf'
      | closeWrite p =>
          obtain ⟨code, -, -, rfl⟩ | ⟨-, cbuf, p', -, -, rfl⟩ := fgo_closeWrite h <;> cases hf'
      | innerSeek off whence | exited => cases h
      | _ =>
          obtain ⟨rfl, rfl⟩ := Prod.mk.inj (Option.some.inj h)
          cases hf'
  | store hp | readRet hp | spurious hp => cases hf'
  | seekRet off whence result dest | wake hparked => cases hf'

theorem UPc.Hidden.congr {s s' : SlBuffer α} {u : UPc α} (h : u.Hidden s)
    (hresult : s'.seekResult = s.seekResult) : u.Hidden s' := by
  cases u with
  | seekUnlock off whence found | testResult off whence found | retResult off whence found =>
      exact fun hzero => h (hresult.symm.trans hzero)
  | _ => exact h

/-- A step of the filler is a step of its shadow. -/
theorem Shadow.filler {a : FAct α} {x y : Stream α} {s : SlBuffer α} {f : FPc α}
    (hx : SeekInv x.s x.f x.u) (hi : LiveInv x.s x.f x.u) (hok : FailsDirect x (.filler a))
    (h : fstep a x.s x.f = some (s, f)) (hS : Shadow x.s x.f x.u y) :
    ∃ y', (buffered α c step).Steps SeeksSucceed y y' ∧ Shadow s f x.u y' := by
  have hframe := fstep_frame h
  have hsucc : ∀ z : Stream α, SeeksSucceed z (.filler a) := fun z => by
    cases a <;> exact hok
  cases hS with
  | hidden m hu hlock htrace =>
      obtain ⟨-, hserving, hanswering⟩ := hx.idle hu.awaits
      have hne : ∀ result, x.f ≠ .storeResult result := fun result hpc => by
        rw [hpc] at hanswering
        cases hanswering
      obtain ⟨m', hstep, hm⟩ := fstep_mask (m := m) h (fun hl => by rw [hlock, hl, ite_self])
        (fun hs => by rw [hserving] at hs; cases hs)
        (fun ha => by rw [FPc.answered_answering ha] at hanswering; cases hanswering)
      refine ⟨⟨s.mask m', f, .idle⟩, .single (a := .filler a) (hsucc _) ?_, .hidden m' ?_ ?_ ?_⟩
      · exact Option.map_eq_some_iff.mpr ⟨_, hstep, rfl⟩
      · exact hu.congr (hframe.result hne)
      · cases hheld : x.u.holdsS with
        | true =>
            have hl := hx.lockU.mpr hheld
            have hf : x.f.holdsS = false := by
              refine Bool.eq_false_iff.mpr fun hf => ?_
              rw [hx.excl hf] at hheld
              cases hheld
            rw [(hm.hidden hf (by rw [hl]; nofun)).1, hlock, hheld]
            rfl
        | false =>
            rw [hheld] at hlock
            exact hm.lock hlock
      · rw [hm.trace, htrace, hframe.trace]
  | shown m hu hlock htrace hparams hresult =>
      obtain ⟨m', hstep, hm⟩ := fstep_mask (m := m) h (fun hl => by rw [hlock, hl])
        (fun hs => hparams (UPc.awaits_seeking (hx.req (hx.busy (.inl hs)))))
        (fun ha => by obtain ⟨hm, hs⟩ := hresult (.inl ha); rw [hm, hs])
      refine ⟨⟨s.mask m', f, x.u⟩, .single (a := .filler a) (hsucc _) ?_,
        .shown m' hu (hm.lock hlock) ?_ ?_ ?_⟩
      · exact Option.map_eq_some_iff.mpr ⟨_, hstep, rfl⟩
      · rw [hm.trace, htrace, hframe.trace]
      · rw [hm.off, hm.whence, hframe.seekOff, hframe.seekWhence]
        exact hparams
      · intro hknown
        by_cases hpc : ∃ result, x.f = .storeResult result
        · obtain ⟨result, hpc⟩ := hpc
          have hzero : x.f.result x.s = 0 := hi.result (by rw [hpc]; rfl)
          rw [hpc] at hzero
          exact ⟨(hm.stored result hpc).trans hzero, (hframe.stored result hpc).trans hzero⟩
        · rw [not_exists] at hpc
          rw [hm.result hpc, hframe.result hpc]
          rcases hknown with ha | ht | ⟨haw, hreq⟩
          · exact hresult (.inl (fstep_answered h ha hpc))
          · exact hresult (.inr (.inl ht))
          · by_cases hclear : x.f = .clearReq
            · exact hresult (.inl (by rw [hclear]; rfl))
            · exact hresult (.inr (.inr ⟨haw, (hframe.req hclear).symm.trans hreq⟩))

/-- The first steps of a seek, taken by the shadow in one go. -/
theorem seek_test {s : SlBuffer α} {f : FPc α} {m : Mask α} (off whence : Int)
    (hfree : m.lock = none) :
    (buffered α c step).Steps SeeksSucceed ⟨s.mask m, f, .idle⟩
      ⟨s.mask { m with off, whence, lock := some .consumer }, f,
        if s.fillerStarted then .setReq off whence else .innerSeek off whence⟩ := by
  have hcall : (buffered α c step).Steps SeeksSucceed ⟨s.mask m, f, .idle⟩
      ⟨s.mask m, f, .storeOff off whence⟩ :=
    .single (a := .user (.call (.seek off whence))) trivial rfl
  have hoff : (buffered α c step).Steps SeeksSucceed ⟨s.mask m, f, .storeOff off whence⟩
      ⟨s.mask { m with off }, f, .storeWhence off whence⟩ := .single (a := .user .go) trivial rfl
  have hwhence : (buffered α c step).Steps SeeksSucceed
      ⟨s.mask { m with off }, f, .storeWhence off whence⟩
      ⟨s.mask { m with off, whence }, f, .seekLock off whence⟩ :=
    .single (a := .user .go) trivial rfl
  have hlock : (buffered α c step).Steps SeeksSucceed
      ⟨s.mask { m with off, whence }, f, .seekLock off whence⟩
      ⟨s.mask { m with off, whence, lock := some .consumer }, f, .testStarted off whence⟩ :=
    .single (a := .user .go) trivial (Option.map_eq_some_iff.mpr ⟨_, if_pos hfree, rfl⟩)
  exact (((hcall.trans hoff).trans hwhence).trans hlock).tail (a := .user .go) trivial rfl

theorem succeeded_append (trace : List (Event α)) (e : Event α) :
    succeeded (trace ++ [e]) = succeeded trace ++ if e.failed then [] else [e] := by
  rw [succeeded, List.filter_append]
  cases he : e.failed <;> simp [succeeded, he]

/-- A step of the user while its call is hidden: the shadow waits, or
catches up. -/
theorem Shadow.hidden_user {a : UAct α} {s s' : SlBuffer α} {f : FPc α} {u u' : UPc α} {m : Mask α}
    (hx : SeekInv s f u) (hok : FailsDirect ⟨s, f, u⟩ (.user a)) (h : ustep a s u = some (s', u'))
    (hu : u.Hidden s) (hlock : m.lock = if u.holdsS then none else s.seekLock)
    (htrace : m.trace = succeeded s.trace) :
    ∃ y, (buffered α c step).Steps SeeksSucceed ⟨s.mask m, f, .idle⟩ y ∧ Shadow s' f u' y := by
  cases ustep_cases h with
  | go h =>
      cases u with
      | storeOff off whence | storeWhence off whence =>
          obtain ⟨rfl, rfl⟩ := Prod.mk.inj (Option.some.inj h)
          exact ⟨_, .refl, .hidden m trivial hlock htrace⟩
      | seekLock off whence =>
          obtain ⟨hl, h⟩ := Option.ite_none_right_eq_some.mp h
          obtain ⟨rfl, rfl⟩ := Prod.mk.inj (Option.some.inj h)
          exact ⟨_, .refl, .hidden m trivial (hlock.trans hl) htrace⟩
      | testStarted off whence =>
          obtain ⟨rfl, rfl⟩ := Prod.mk.inj (Option.some.inj h)
          obtain ⟨-, -, ha⟩ := hx.idle rfl
          split
          · next hstarted =>
            refine ⟨_, seek_test off whence hlock, ?_⟩
            rw [if_pos hstarted]
            refine .shown { m with off, whence, lock := some .consumer } trivial ?_ htrace ?_ ?_
            · exact (hx.lockU.mpr rfl).symm
            · exact fun _ => ⟨hx.uat.1.symm, hx.uat.2.symm⟩
            · rintro (hf | ht | ⟨haw, -⟩)
              · rw [FPc.answered_answering hf] at ha; cases ha
              · cases ht
              · cases haw
          · exact ⟨_, .refl, .hidden m trivial hlock htrace⟩
      | storeResult off whence result =>
          obtain ⟨rfl, rfl⟩ := Prod.mk.inj (Option.some.inj h)
          exact ⟨_, .refl, .hidden m hu hlock htrace⟩
      | seekUnlock off whence found =>
          obtain ⟨rfl, rfl⟩ := Prod.mk.inj (Option.some.inj h)
          exact ⟨_, .refl, .hidden m hu hlock htrace⟩
      | testResult off whence found =>
          obtain ⟨rfl, rfl⟩ := Prod.mk.inj (Option.some.inj h)
          rw [if_neg hu]
          exact ⟨_, .refl, .hidden m hu hlock htrace⟩
      | retResult off whence found =>
          obtain ⟨rfl, rfl⟩ := Prod.mk.inj (Option.some.inj h)
          obtain ⟨-, -, ha⟩ := hx.idle rfl
          refine ⟨_, .refl, .shown m trivial hlock ?_ nofun ?_⟩
          · have hfailed :
                (Event.seek off whence s.seekResult found s.pos s.eof : Event α).failed = true :=
              bne_iff_ne.mpr hu
            rw [htrace, succeeded_append, hfailed]
            exact (List.append_nil _).symm
          · rintro (hf | ht | ⟨haw, -⟩)
            · rw [FPc.answered_answering hf] at ha; cases ha
            · cases ht
            · cases haw
      | innerSeek off whence => cases h
      | _ => cases hu
  | call r | spurious hq | wake hparked => cases hu
  | seekRet off whence result dest =>
      obtain ⟨-, -, ha⟩ := hx.idle rfl
      by_cases hres : result = 0
      · -- the call goes well, the shadow catches up
        subst hres
        have hstarted : s.fillerStarted = false := hx.uat.2
        have htest : (buffered α c step).Steps SeeksSucceed ⟨s.mask m, f, .idle⟩ _ :=
          seek_test off whence hlock
        rw [hstarted] at htest
        refine ⟨_, htest.tail (a := .user (.seekRet 0 dest)) rfl rfl, .shown
            { m with off, whence, lock := some .consumer
                     direct := m.direct ++ [(off, whence, 0)] } rfl ?_ htrace nofun ?_⟩
        · exact (hx.lockU.mpr rfl).symm
        · rintro (hf | ht | ⟨haw, -⟩)
          · rw [FPc.answered_answering hf] at ha; cases ha
          · cases ht
          · cases haw
      · obtain rfl := hok hres
        refine ⟨_, .refl, ?_⟩
        rw [show s.mask m = SlBuffer.mask { s.innerSeek result s.inner with
          direct := s.direct ++ [(off, whence, result)] } m by
            simp only [SlBuffer.mask, SlBuffer.innerSeek, if_neg hres]]
        exact .hidden m hres hlock htrace

/-- A step of the user that the shadow takes too. -/
theorem shadow_keep {a : UAct α} {s s' : SlBuffer α} {f : FPc α} {u u' : UPc α} {m : Mask α}
    (m' : Mask α) (hok : SeeksSucceed (⟨s.mask m, f, u⟩ : Stream α) (.user a))
    (hstep : ustep a (s.mask m) u = some (s'.mask m', u'))
    (hS : Shadow s' f u' ⟨s'.mask m', f, u'⟩) :
    ∃ y, (buffered α c step).Steps SeeksSucceed ⟨s.mask m, f, u⟩ y ∧ Shadow s' f u' y :=
  ⟨_, .single hok (Option.map_eq_some_iff.mpr ⟨_, hstep, rfl⟩), hS⟩

theorem Shadow.shown_user {a : UAct α} {s s' : SlBuffer α} {f : FPc α} {u u' : UPc α} {m : Mask α}
    (hx : SeekInv s f u) (h : ustep a s u = some (s', u')) (hu : u.Shown)
    (hlock : m.lock = s.seekLock) (htrace : m.trace = succeeded s.trace)
    (hparams : u.seeking = true → m.off = s.seekOff ∧ m.whence = s.seekWhence)
    (hresult : Known s f u → m.result = 0 ∧ s.seekResult = 0) :
    ∃ y, (buffered α c step).Steps SeeksSucceed ⟨s.mask m, f, u⟩ y ∧ Shadow s' f u' y := by
  have hsucc : ∀ z : Stream α, SeeksSucceed z (.user a) := fun z => by
    cases ustep_cases h with
    | seekRet off whence result dest => cases hu
    | _ => trivial
  cases ustep_cases h with
  | go h =>
      cases u with
      | idle | destroyed => cases h
      | storeOff off whence | storeWhence off whence | seekLock off whence | testStarted off whence
      | innerSeek off whence | retResult off whence found => cases hu
      | read tell₀ q =>
          rcases ugo_read h with ⟨k, rfl, rfl, rfl⟩ | ⟨hret, cbuf, q', hq, rfl, rfl⟩
          · split
            · next hlt =>
              exact shadow_keep m (hsucc _) (congrArg (fun s => some (s, _)) (if_pos hlt))
                (.shown m trivial hlock htrace nofun hresult)
            · next hge =>
              exact shadow_keep m (hsucc _) (congrArg (fun s => some (s, _)) (if_neg hge))
                (.shown m trivial hlock htrace nofun hresult)
          · exact shadow_keep m (hsucc _) (ugo_read_of hret hq)
              (.shown m trivial hlock htrace nofun hresult)
      | readPos tell₀ k =>
          obtain ⟨rfl, rfl⟩ := Prod.mk.inj (Option.some.inj h)
          refine shadow_keep { m with trace := m.trace ++ [.read tell₀ k.len (k.buf.read 0 k.read)
            s.epoch (s.pos + k.read) s.eof] } (hsucc _) rfl
            (.shown _ trivial hlock ?_ nofun hresult)
          rw [succeeded_append, htrace]
          rfl
      | setReq off whence =>
          obtain ⟨rfl, rfl⟩ := Prod.mk.inj (Option.some.inj h)
          obtain ⟨-, -, ha⟩ := hx.idle rfl
          refine shadow_keep m (hsucc _) rfl
            (.shown m trivial hlock htrace (fun _ => hparams rfl) ?_)
          rintro (hf | ht | ⟨-, hreq⟩)
          · rw [FPc.answered_answering hf] at ha; cases ha
          · cases ht
          · cases hreq
      | closeRead off whence q =>
          rcases ugo_closeRead h with ⟨code, rfl, rfl, rfl⟩ | ⟨hclosed, cbuf, q', hq, rfl, rfl⟩
          · exact shadow_keep m (hsucc _) rfl (.shown m trivial hlock htrace hparams hresult)
          · exact shadow_keep m (hsucc _) (ugo_closeRead_of hclosed hq)
              (.shown m trivial hlock htrace hparams hresult)
      | endClose q =>
          rcases ugo_endClose h with ⟨code, rfl, rfl, rfl⟩ | ⟨hclosed, cbuf, q', hq, rfl, rfl⟩
          · exact shadow_keep m (hsucc _) rfl (.shown m trivial hlock htrace nofun hresult)
          · exact shadow_keep m (hsucc _) (ugo_endClose_of hclosed hq)
              (.shown m trivial hlock htrace nofun hresult)
      | signalFiller off whence =>
          obtain ⟨rfl, rfl⟩ := Prod.mk.inj (Option.some.inj h)
          exact shadow_keep m (hsucc _) rfl (.shown m trivial hlock htrace hparams hresult)
      | testReq off whence =>
          obtain ⟨rfl, rfl⟩ := Prod.mk.inj (Option.some.inj h)
          split
          · next hreq =>
            exact shadow_keep m (hsucc _) (congrArg (fun u => some (_, u)) (if_pos hreq))
              (.shown m trivial hlock htrace hparams hresult)
          · next hno =>
            exact shadow_keep m (hsucc _) (congrArg (fun u => some (_, u)) (if_neg hno))
              (.shown m trivial hlock htrace nofun
                fun _ => hresult (.inr (.inr ⟨rfl, Bool.eq_false_iff.mpr hno⟩)))
      | wait off whence =>
          obtain ⟨rfl, rfl⟩ := Prod.mk.inj (Option.some.inj h)
          exact shadow_keep { m with lock := none } (hsucc _) rfl
            (.shown _ trivial rfl htrace hparams hresult)
      | parked off whence =>
          obtain ⟨⟨hw, hl⟩, h⟩ := Option.ite_none_right_eq_some.mp h
          obtain ⟨rfl, rfl⟩ := Prod.mk.inj (Option.some.inj h)
          exact shadow_keep { m with lock := some .consumer } (hsucc _)
            (if_pos ⟨hw, hlock.trans hl⟩) (.shown _ trivial rfl htrace hparams hresult)
      | storeResult off whence result =>
          obtain ⟨rfl, rfl⟩ := Prod.mk.inj (Option.some.inj h)
          obtain rfl := hu
          exact shadow_keep { m with result := 0 } (hsucc _) rfl
            (.shown _ trivial hlock htrace nofun fun _ => ⟨rfl, rfl⟩)
      | seekUnlock off whence found =>
          obtain ⟨rfl, rfl⟩ := Prod.mk.inj (Option.some.inj h)
          exact shadow_keep { m with lock := none } (hsucc _) rfl
            (.shown _ trivial rfl htrace nofun fun _ => hresult (.inr (.inl rfl)))
      | testResult off whence found =>
          obtain ⟨rfl, rfl⟩ := Prod.mk.inj (Option.some.inj h)
          obtain ⟨hm, hs⟩ := hresult (.inr (.inl rfl))
          rw [if_pos hs]
          exact shadow_keep m (hsucc _) (congrArg (fun u => some (_, u)) (if_pos hm))
            (.shown m trivial hlock htrace nofun fun _ => ⟨hm, hs⟩)
      | storePos off whence found =>
          obtain ⟨rfl, rfl⟩ := Prod.mk.inj (Option.some.inj h)
          exact shadow_keep m (hsucc _) rfl
            (.shown m trivial hlock htrace nofun fun _ => hresult (.inr (.inl rfl)))
      | storeEof off whence found =>
          obtain ⟨rfl, rfl⟩ := Prod.mk.inj (Option.some.inj h)
          refine shadow_keep { m with trace := m.trace ++ [.seek off whence 0 found s.pos false] }
            (hsucc _) rfl (.shown _ trivial hlock ?_ nofun fun _ => hresult (.inr (.inl rfl)))
          rw [succeeded_append, htrace]
          rfl
      | endLock =>
          obtain ⟨hl, h⟩ := Option.ite_none_right_eq_some.mp h
          obtain ⟨rfl, rfl⟩ := Prod.mk.inj (Option.some.inj h)
          exact shadow_keep { m with lock := some .consumer } (hsucc _) (if_pos (hlock.trans hl))
            (.shown _ trivial rfl htrace nofun hresult)
      | endSignal =>
          obtain ⟨rfl, rfl⟩ := Prod.mk.inj (Option.some.inj h)
          exact shadow_keep m (hsucc _) rfl (.shown m trivial hlock htrace nofun hresult)
      | endUnlock =>
          obtain ⟨rfl, rfl⟩ := Prod.mk.inj (Option.some.inj h)
          exact shadow_keep { m with lock := none } (hsucc _) rfl
            (.shown _ trivial rfl htrace nofun hresult)
      | join =>
          obtain ⟨hex, h⟩ := Option.ite_none_right_eq_some.mp h
          obtain ⟨rfl, rfl⟩ := Prod.mk.inj (Option.some.inj h)
          exact shadow_keep m (hsucc _) (if_pos hex) (.shown m trivial hlock htrace nofun hresult)
  | call r =>
      cases r with
      | read buf len =>
          exact shadow_keep m (hsucc _) rfl (.shown m trivial hlock htrace nofun hresult)
      | seek off whence => exact ⟨_, .refl, .hidden m trivial hlock htrace⟩
      | destroy =>
          exact shadow_keep m (hsucc _) rfl (.shown m trivial hlock htrace nofun hresult)
  | seekRet off whence result dest => cases hu
  | spurious hq =>
      exact shadow_keep m (hsucc _) (Option.map_eq_some_iff.mpr ⟨_, hq, rfl⟩)
        (.shown m trivial hlock htrace nofun hresult)
  | wake hparked =>
      exact shadow_keep m (hsucc _) (if_pos hparked)
        (.shown m trivial hlock htrace hparams hresult)

theorem shadow_of_reach {x : Stream α} (h : (buffered α c step).Reach FailsDirect x) :
    ∃ y, (buffered α c step).Reach SeeksSucceed y ∧ Shadow x.s x.f x.u y := by
  refine h.simulate (R := fun x y => Shadow x.s x.f x.u y) ?_ ?_
  · rintro x hinit
    have hinit' := hinit
    obtain ⟨env, others, s, hs, -, rfl⟩ := hinit
    obtain ⟨cb, -, -, rfl⟩ := slBufferCreate2_eq hs
    refine ⟨_, hinit', .shown ⟨0, 0, 0, none, [], []⟩ trivial rfl rfl nofun ?_⟩
    exact fun _ => ⟨rfl, rfl⟩
  intro x a x' y hreach hS hok hstep
  have hx := seekInv_of_reach hreach
  rcases streamStep_cases hstep with ⟨b, rfl, hb, hu⟩ | ⟨b, rfl, hb, hf⟩
  · rw [hu]
    exact hS.filler hx (liveInv_of_reach (hreach.mono fun _ _ => FailsDirect.serves)) hok hb
  · rw [hf]
    cases hS with
    | hidden m hu hlock htrace => exact Shadow.hidden_user hx hok hb hu hlock htrace
    | shown m hu hlock htrace hparams hresult =>
        exact Shadow.shown_user hx hb hu hlock htrace hparams hresult

/-! ## The main result -/

/-- The stream `x` as if its failed calls had not been made: `y` has the
same buffer, offset, end of file and filler, the trace of the calls that
did not fail, and the same call in progress, or none while `x` is in a seek
that fails or has not been found to succeed. -/
structure Stream.WithoutFailures (x y : Stream α) : Prop where
  filler : y.f = x.f
  user : y.u = x.u ∨ y.u = .idle ∧ x.u.Hidden x.s
  fields : ∃ m, y.s = x.s.mask m
  trace : y.s.trace = succeeded x.s.trace

/-- A failed seek leaves the stream as it was. Every seek returns what its
inner seek returned; after a failed one `tell` and `eof` are what they were;
the stream is in a state that it reaches without the failed calls, so every
read gives the same; and no thread waits in vain, the filler being there
until `sl_buffer_destroy` has closed reading. -/
structure Stream.Undisturbed (c step : Nat) (x : Stream α) : Prop where
  code : x.u = .idle →
    directs x.s.trace = x.s.direct ∧ returned x.s.trace = answers x.s.served
  unmoved : Unmoved x.s.trace
  same : ∃ y, (buffered α c step).Reach SeeksSucceed y ∧ x.WithoutFailures y
  live : x.Live

/-- The inner seeks that fail leave the inner stream where it was. -/
def FailsInPlace (x : Stream α) : BAct α → Prop
  | .filler (.seekRet result dest) | .user (.seekRet result dest) =>
      result ≠ 0 → dest = x.s.inner
  | _ => True

/-- **A failed seek leaves the stream as it was**, in the runs in which
every inner seek that fails is made by the user itself, before the filler
has set `filler_started`. -/
theorem failed_seek_undisturbed (c step : Nat) (x : Stream α)
    (h : (buffered α c step).Reach FailsDirect x) : x.Undisturbed c step := by
  have hcall := callInv_of_reach h
  refine ⟨fun hu => ?_, hcall.unmoved, ?_, live_of_reach (h.mono fun _ _ => FailsDirect.serves)⟩
  · have hdirect := hcall.direct
    have hlog := (seekInv_of_reach h).log
    rw [hu] at hdirect hlog
    refine ⟨hdirect.symm, ?_⟩
    cases hlog with
    | quiet hlog _ => exact hlog.symm
  · obtain ⟨y, hy, hS⟩ := shadow_of_reach h
    refine ⟨y, hy, ?_⟩
    cases hS with
    | hidden m hu _ htrace => exact ⟨rfl, .inr ⟨rfl, hu⟩, ⟨m, rfl⟩, htrace⟩
    | shown m _ _ htrace _ _ => exact ⟨rfl, .inl rfl, ⟨m, rfl⟩, htrace⟩

/-- The user seeks before the filler starts, and the inner seek fails. -/
theorem failed_seek_undisturbed_run :
    ∃ x : Stream Nat, x.s.trace = [.seek 5 slSeekSet (-1) false 0 false] ∧ x.u = .idle
      ∧ x.Undisturbed 1 1 := by
  let before : List (BAct Nat) := .user (.call (.seek 5 slSeekSet)) :: List.replicate 4 (.user .go)
  let after : List (BAct Nat) := List.replicate 4 (.user .go)
  have hrun : ∃ x y z, (buffered Nat 1 1).run before
        ⟨.fresh ⟨fun _ => 0, 2, 0, 0, false, false⟩ 1, .startLock, .idle⟩ = some x
      ∧ x.s.inner = 0 ∧ (buffered Nat 1 1).step (.user (.seekRet (-1) 0)) x = some y
      ∧ (buffered Nat 1 1).run after y = some z
      ∧ z.s.trace = [.seek 5 slSeekSet (-1) false 0 false] ∧ z.u = .idle :=
    ⟨_, _, _, rfl, rfl, rfl, rfl, rfl, rfl⟩
  obtain ⟨x, y, z, hbefore, hinner, hret, hafter, htrace, hidle⟩ := hrun
  have hx : (buffered Nat 1 1).Reach FailsDirect x := by
    refine .run ?_ (.init ⟨.ample 0, true, _, rfl, by decide, rfl⟩) hbefore
    intro a ha s
    obtain rfl | rfl : a = .user (.call (.seek 5 slSeekSet)) ∨ a = .user .go := by
      simpa [before] using ha
    all_goals trivial
  have hret' : FailsDirect x (.user (.seekRet (-1) 0)) := fun _ => hinner.symm
  have hz : (buffered Nat 1 1).Reach FailsDirect z := by
    refine .run ?_ (.step hx hret' hret) hafter
    intro a ha s
    obtain rfl : a = .user .go := by simpa [after] using ha
    trivial
  exact ⟨z, htrace, hidle, failed_seek_undisturbed 1 1 z hz⟩

/-- A seek that the filler serves fails: the filler leaves its loop, though
nobody destroys the stream. -/
theorem failed_seek_disturbs :
    ¬ ∀ (c step : Nat) (x : Stream Nat), (buffered Nat c step).Reach FailsInPlace x →
      x.Undisturbed c step := by
  intro hall
  let before : List (BAct Nat) := List.replicate 3 (.filler .go)
    ++ .user (.call (.seek 5 slSeekSet)) :: List.replicate 14 (.user .go)
    ++ List.replicate 5 (.filler .go)
  let after : List (BAct Nat) := List.replicate 19 (.filler .go) ++ List.replicate 5 (.user .go)
  have hrun : ∃ x y z, (buffered Nat 1 1).run before
        ⟨.fresh ⟨fun _ => 0, 2, 0, 0, false, false⟩ 1, .startLock, .idle⟩ = some x
      ∧ x.s.inner = 0 ∧ (buffered Nat 1 1).step (.filler (.seekRet (-1) 0)) x = some y
      ∧ (buffered Nat 1 1).run after y = some z ∧ z.f = .exited ∧ z.u = .idle :=
    ⟨_, _, _, rfl, rfl, rfl, rfl, rfl, rfl⟩
  obtain ⟨x, y, z, hbefore, hinner, hret, hafter, hexited, hidle⟩ := hrun
  have hx : (buffered Nat 1 1).Reach FailsInPlace x := by
    refine .run ?_ (.init ⟨.ample 0, true, _, rfl, by decide, rfl⟩) hbefore
    intro a ha s
    obtain rfl | rfl | rfl : a = .filler .go ∨ a = .user (.call (.seek 5 slSeekSet))
        ∨ a = .user .go := by
      simp only [before, List.mem_append, List.mem_cons, List.mem_replicate] at ha
      tauto
    all_goals trivial
  have hret' : FailsInPlace x (.filler (.seekRet (-1) 0)) := fun _ => hinner.symm
  have hz : (buffered Nat 1 1).Reach FailsInPlace z := by
    refine .run ?_ (.step hx hret' hret) hafter
    intro a ha s
    obtain rfl | rfl : a = .filler .go ∨ a = .user .go := by simpa [after] using ha
    all_goals trivial
  obtain ⟨hend, -⟩ := (hall 1 1 z hz).live.exited hexited
  rw [hidle] at hend
  cases hend

end Streamlike
