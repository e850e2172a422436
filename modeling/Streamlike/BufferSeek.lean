import Streamlike.Buffer

/-!
# The seek handshake

The parameters and the result of a seek are plain fields, written and read
outside `seek_lock`. What orders them is `seek_requested`: only the user
sets it, only the filler clears it, and both under the lock. `SeekInv` is
that protocol: while it is set the user is inside its call, so nobody
else writes the parameters, and the filler serves it once.

The log of the inner seeks and the list of the calls returned then agree
entry by entry (`LogOk`): they differ by at most the request in progress.
-/

namespace Streamlike

variable {α : Type}

/-! ## Program points -/

/-- The filler holds `seek_lock`. -/
def FPc.holdsS : FPc α → Bool
  | .start | .startUnlock | .testResult | .reset0 | .reset1 | .reset2 | .reset3 | .clearReq
  | .signalUser | .seekUnlock | .closeWrite _ | .testRead | .wait | .endUnlock => true
  | _ => false

/-- The filler is on the queue of `seek_cond`. -/
def FPc.waits : FPc α → Bool
  | .parked => true
  | _ => false

/-- The filler has not set `filler_started`. -/
def FPc.starting : FPc α → Bool
  | .startLock | .start => true
  | _ => false

/-- The filler has seen the request and has not made the inner seek. -/
def FPc.serving : FPc α → Bool
  | .loadOff | .loadWhence _ | .innerSeek _ _ => true
  | _ => false

/-- The filler has made the inner seek and has not cleared the request. -/
def FPc.answering : FPc α → Bool
  | .storeResult _ | .seekLock | .testResult | .reset0 | .reset1 | .reset2 | .reset3
  | .clearReq => true
  | _ => false

/-- The filler is inside `circbuf_reset`. -/
def FPc.resetting : FPc α → Bool
  | .reset0 | .reset1 | .reset2 | .reset3 => true
  | _ => false

/-- The reset has begun, or been skipped, and the request is not cleared. -/
def FPc.opened : FPc α → Bool
  | .reset1 | .reset2 | .reset3 | .clearReq => true
  | _ => false

/-- The result of the last inner seek, stored or not. -/
def FPc.result (s : SlBuffer α) : FPc α → Int
  | .storeResult result => result
  | _ => s.seekResult

def UPc.holdsS : UPc α → Bool
  | .testStarted .. | .setReq .. | .closeRead .. | .signalFiller .. | .testReq .. | .wait ..
  | .innerSeek .. | .storeResult .. | .seekUnlock .. | .endClose _ | .endSignal
  | .endUnlock => true
  | _ => false

def UPc.waits : UPc α → Bool
  | .parked .. => true
  | _ => false

/-- The user has raised a request and not seen it cleared. -/
def UPc.awaits : UPc α → Bool
  | .closeRead .. | .signalFiller .. | .testReq .. | .wait .. | .parked .. => true
  | _ => false

/-- Inside a seek call that has raised a request: its arguments. -/
def UPc.request : UPc α → Option (Int × Int)
  | .closeRead off whence _ | .signalFiller off whence | .testReq off whence | .wait off whence
  | .parked off whence => some (off, whence)
  | .seekUnlock off whence found | .testResult off whence found | .storePos off whence found
  | .storeEof off whence found | .retResult off whence found =>
      if found then some (off, whence) else none
  | _ => none

/-! ## The invariant -/

/-- The inner seeks of the filler: their parameters and results. -/
def answers (served : List Served) : List (Int × Int × Int) :=
  served.map fun e => (e.off, e.whence, e.result)

/-- The seek calls that went through the filler: their arguments and
return values. -/
def returned (trace : List (Event α)) : List (Int × Int × Int) :=
  trace.filterMap fun
    | .seek off whence code true _ _ => some (off, whence, code)
    | _ => none

/-- The log against the calls returned, by what the user's call is at:
no request; one that has not been served; one that has. -/
inductive LogOk (req answering : Bool) (result : Int) (served : List Served)
    (ret : List (Int × Int × Int)) (reqs : Nat) : Option (Int × Int) → Prop
  | quiet (hlog : answers served = ret) (hreqs : reqs = served.length) :
      LogOk req answering result served ret reqs none
  | raised {a : Int × Int} (hreq : req = true) (hf : answering = false)
      (hlog : answers served = ret) (hreqs : reqs = served.length + 1) :
      LogOk req answering result served ret reqs (some a)
  | answered {off whence : Int} (hf : req = true → answering = true)
      (hlog : answers served = ret ++ [(off, whence, result)]) (hreqs : reqs = served.length) :
      LogOk req answering result served ret reqs (some (off, whence))

/-- What the filler's locals know. -/
def FAt (s : SlBuffer α) : FPc α → Prop
  | .loadWhence off => off = s.seekOff
  | .innerSeek off whence => off = s.seekOff ∧ whence = s.seekWhence
  | .reset0 | .reset1 | .reset2 | .reset3 => s.seekResult = 0
  | _ => True

/-- What the user's locals know. -/
def UAt (s : SlBuffer α) : UPc α → Prop
  | .storeWhence off _ => s.seekOff = off
  | .seekLock off whence | .testStarted off whence | .testReq off whence | .parked off whence =>
      s.seekOff = off ∧ s.seekWhence = whence
  | .setReq off whence =>
      (s.seekOff = off ∧ s.seekWhence = whence) ∧ s.fillerStarted = true
  | .closeRead off whence _ | .signalFiller off whence | .wait off whence =>
      (s.seekOff = off ∧ s.seekWhence = whence) ∧ s.seekRequested = true
  | .innerSeek off whence | .storeResult off whence _ =>
      (s.seekOff = off ∧ s.seekWhence = whence) ∧ s.fillerStarted = false
  | .storePos .. | .storeEof .. => s.seekResult = 0
  | .retResult .. => s.seekResult ≠ 0
  | _ => True

structure SeekInv (s : SlBuffer α) (f : FPc α) (u : UPc α) : Prop where
  lockF : s.seekLock = some .producer ↔ f.holdsS = true
  lockU : s.seekLock = some .consumer ↔ u.holdsS = true
  condF : s.fillerCond = .out ↔ f.waits = false
  condU : s.userCond = .out ↔ u.waits = false
  started : s.fillerStarted = true ↔ f.starting = false
  req : s.seekRequested = true → u.awaits = true
  busy : f.serving = true ∨ f.answering = true → s.seekRequested = true
  fat : FAt s f
  uat : UAt s u
  numbered : s.served.map (·.req) = List.range' 1 s.served.length
  log : LogOk s.seekRequested f.answering (f.result s) s.served (returned s.trace) s.reqs
    u.request

section Facts

variable {s : SlBuffer α} {f : FPc α} {u : UPc α}

/-- The two threads do not hold the lock together. -/
theorem SeekInv.excl (h : SeekInv s f u) (hf : f.holdsS = true) : u.holdsS = false := by
  refine Bool.eq_false_iff.mpr fun hu => ?_
  have := (h.lockF.mpr hf).symm.trans (h.lockU.mpr hu)
  cases this

/-- While the filler answers under the lock, the user is in its wait. -/
theorem SeekInv.parked (h : SeekInv s f u) (hf : f.answering = true) (hl : f.holdsS = true) :
    ∃ off whence, u = .parked off whence := by
  have haw := h.req (h.busy (.inr hf))
  have hno := h.excl hl
  cases u with
  | parked off whence => exact ⟨off, whence, rfl⟩
  | closeRead off whence q | signalFiller off whence | testReq off whence | wait off whence =>
      cases hno
  | _ => cases haw

/-- The parameters of the request in progress are in the fields. -/
theorem SeekInv.request (h : SeekInv s f u) (hu : u.awaits = true) :
    u.request = some (s.seekOff, s.seekWhence) := by
  have hat := h.uat
  cases u with
  | closeRead off whence q | signalFiller off whence | wait off whence =>
      obtain ⟨⟨rfl, rfl⟩, -⟩ := hat
      rfl
  | testReq off whence | parked off whence =>
      obtain ⟨rfl, rfl⟩ := hat
      rfl
  | _ => cases hu

/-- Nobody is serving a request that has not been raised. -/
theorem SeekInv.idle (h : SeekInv s f u) (hu : u.awaits = false) :
    s.seekRequested = false ∧ f.serving = false ∧ f.answering = false := by
  have hreq : s.seekRequested = false := by
    refine Bool.eq_false_iff.mpr fun hr => ?_
    rw [h.req hr] at hu
    cases hu
  refine ⟨hreq, ?_, ?_⟩ <;> refine Bool.eq_false_iff.mpr fun hf => ?_
  · rw [h.busy (.inl hf)] at hreq; cases hreq
  · rw [h.busy (.inr hf)] at hreq; cases hreq

end Facts

/-! ## The filler's steps -/

theorem LogOk.answer {req answering : Bool} {result : Int} {served : List Served}
    {ret : List (Int × Int × Int)} {reqs : Nat} {off whence : Int} {a : Option (Int × Int)}
    (h : LogOk req answering result served ret reqs a) (ha : a = some (off, whence))
    (hreq : req = true) (hf : answering = false) (res : Int) :
    LogOk req true res (served ++ [⟨reqs, off, whence, res⟩]) ret reqs a
      ∧ reqs = served.length + 1 := by
  subst ha
  cases h with
  | raised _ _ hlog hreqs =>
      refine ⟨.answered (fun _ => rfl) ?_ ?_, hreqs⟩
      · rw [answers, List.map_append, ← answers, hlog]
        rfl
      · rw [List.length_append, hreqs, List.length_singleton]
  | answered hno _ _ => rw [hno hreq] at hf; cases hf

/-- What the user's locals know, under a step of the filler. -/
theorem UAt.stable {s s' : SlBuffer α} {u : UPc α} (h : UAt s u)
    (hoff : s'.seekOff = s.seekOff) (hwhence : s'.seekWhence = s.seekWhence)
    (hlocked : u.holdsS = true →
      s'.fillerStarted = s.fillerStarted ∧ s'.seekRequested = s.seekRequested)
    (hresult : u.awaits = false → s'.seekResult = s.seekResult) : UAt s' u := by
  cases u with
  | storeWhence off whence => exact hoff.trans h
  | seekLock off whence | testStarted off whence | testReq off whence | parked off whence =>
      exact ⟨hoff.trans h.1, hwhence.trans h.2⟩
  | setReq off whence =>
      exact ⟨⟨hoff.trans h.1.1, hwhence.trans h.1.2⟩, (hlocked rfl).1.trans h.2⟩
  | closeRead off whence q | signalFiller off whence | wait off whence =>
      exact ⟨⟨hoff.trans h.1.1, hwhence.trans h.1.2⟩, (hlocked rfl).2.trans h.2⟩
  | innerSeek off whence | storeResult off whence result =>
      exact ⟨⟨hoff.trans h.1.1, hwhence.trans h.1.2⟩, (hlocked rfl).1.trans h.2⟩
  | storePos off whence found | storeEof off whence found => exact (hresult rfl).trans h
  | retResult off whence found => exact fun hzero => h ((hresult rfl).symm.trans hzero)
  | _ => trivial

/-- The lock in the hands of the filler, or of nobody, is not the user's. -/
theorem SeekInv.unheldU {s : SlBuffer α} {f : FPc α} {u : UPc α} (hx : SeekInv s f u)
    {l l' : Option Tid} (hl : s.seekLock = l) (hne : l ≠ some .consumer)
    (hne' : l' ≠ some .consumer) : l' = some .consumer ↔ u.holdsS = true :=
  iff_of_false hne' (mt hx.lockU.mpr (hl ▸ hne))

theorem fgo_seek {s s' : SlBuffer α} {f f' : FPc α} {u : UPc α} (hx : SeekInv s f u)
    (h : fgo s f = some (s', f')) : SeekInv s' f' u := by
  have hat := hx.fat
  cases f with
  | startLock =>
      obtain ⟨hfree, h⟩ := Option.ite_none_right_eq_some.mp h
      obtain ⟨rfl, rfl⟩ := Prod.mk.inj (Option.some.inj h)
      exact { hx with
        lockF := by simp [FPc.holdsS]
        lockU := hx.unheldU hfree (by simp) (by simp) }
  | start =>
      obtain ⟨rfl, rfl⟩ := Prod.mk.inj (Option.some.inj h)
      have hno := hx.excl rfl
      exact { hx with
        started := by simp [FPc.starting]
        uat := hx.uat.stable rfl rfl (fun hu => absurd hu (by simp [hno])) fun _ => rfl }
  | startUnlock =>
      obtain ⟨rfl, rfl⟩ := Prod.mk.inj (Option.some.inj h)
      exact { hx with
        lockF := by simp [FPc.holdsS]
        lockU := hx.unheldU (hx.lockF.mpr rfl) (by simp) (by simp) }
  | loopR =>
      obtain ⟨rfl, rfl⟩ := Prod.mk.inj (Option.some.inj h)
      split <;> exact { hx with fat := trivial }
  | loopQ =>
      rcases fgo_loopQ h with ⟨-, rfl, rfl⟩ | ⟨-, rfl, rfl⟩ <;>
        exact { hx with fat := trivial }
  | ifReq =>
      obtain ⟨rfl, rfl⟩ := Prod.mk.inj (Option.some.inj h)
      split
      · next hreq => exact { hx with busy := fun _ => hreq, fat := trivial }
      · exact { hx with fat := trivial }
  | loadOff =>
      obtain ⟨rfl, rfl⟩ := Prod.mk.inj (Option.some.inj h)
      exact { hx with fat := rfl }
  | loadWhence off =>
      obtain ⟨rfl, rfl⟩ := Prod.mk.inj (Option.some.inj h)
      exact { hx with fat := ⟨hat, rfl⟩ }
  | innerSeek off whence => cases h
  | storeResult result =>
      obtain ⟨rfl, rfl⟩ := Prod.mk.inj (Option.some.inj h)
      have haw := hx.req (hx.busy (.inr rfl))
      exact { hx with
        fat := trivial
        uat := hx.uat.stable rfl rfl (fun _ => ⟨rfl, rfl⟩) fun hu => absurd haw (by simp [hu]) }
  | seekLock =>
      obtain ⟨hfree, h⟩ := Option.ite_none_right_eq_some.mp h
      obtain ⟨rfl, rfl⟩ := Prod.mk.inj (Option.some.inj h)
      exact { hx with
        lockF := by simp [FPc.holdsS]
        lockU := hx.unheldU hfree (by simp) (by simp) }
  | testResult =>
      obtain ⟨rfl, rfl⟩ := Prod.mk.inj (Option.some.inj h)
      split
      · next hzero => exact { hx with fat := hzero }
      · exact { hx with fat := trivial }
  | reset0 | reset1 | reset2 =>
      obtain ⟨rfl, rfl⟩ := Prod.mk.inj (Option.some.inj h)
      exact { hx with fat := hat }
  | reset3 =>
      obtain ⟨rfl, rfl⟩ := Prod.mk.inj (Option.some.inj h)
      exact { hx with fat := trivial }
  | clearReq =>
      obtain ⟨rfl, rfl⟩ := Prod.mk.inj (Option.some.inj h)
      obtain ⟨off, whence, rfl⟩ := hx.parked rfl rfl
      refine { hx with req := by simp, busy := by simp [FPc.serving, FPc.answering], fat := trivial,
                       log := ?_ }
      cases hx.log with
      | raised _ hf _ _ => cases hf
      | answered _ hlog hreqs => exact .answered (by simp) hlog hreqs
  | signalUser =>
      obtain ⟨rfl, rfl⟩ := Prod.mk.inj (Option.some.inj h)
      exact { hx with condU := (Wait.signal_eq_out _).trans hx.condU }
  | seekUnlock =>
      obtain ⟨rfl, rfl⟩ := Prod.mk.inj (Option.some.inj h)
      exact { hx with
        lockF := by simp [FPc.holdsS, FPc.startWrite]
        lockU := hx.unheldU (hx.lockF.mpr rfl) (by simp) (by simp)
        fat := trivial }
  | write p =>
      rcases fgo_write h with ⟨k, written, rfl, rfl, rfl⟩ | ⟨-, cbuf, p', _, rfl, rfl⟩
      · split <;> exact { hx with fat := trivial }
      · exact { hx with fat := trivial }
  | endLock =>
      obtain ⟨hfree, h⟩ := Option.ite_none_right_eq_some.mp h
      obtain ⟨rfl, rfl⟩ := Prod.mk.inj (Option.some.inj h)
      exact { hx with
        lockF := by simp [FPc.holdsS]
        lockU := hx.unheldU hfree (by simp) (by simp) }
  | closeWrite p =>
      rcases fgo_closeWrite h with ⟨code, rfl, rfl, rfl⟩ | ⟨-, cbuf, p', _, rfl, rfl⟩
      · exact { hx with fat := trivial }
      · exact { hx with fat := trivial }
  | testRead =>
      obtain ⟨rfl, rfl⟩ := Prod.mk.inj (Option.some.inj h)
      split <;> exact { hx with fat := trivial }
  | wait =>
      obtain ⟨rfl, rfl⟩ := Prod.mk.inj (Option.some.inj h)
      exact { hx with
        lockF := by simp [FPc.holdsS]
        lockU := hx.unheldU (hx.lockF.mpr rfl) (by simp) (by simp)
        condF := by simp [FPc.waits] }
  | parked =>
      obtain ⟨⟨-, hfree⟩, h⟩ := Option.ite_none_right_eq_some.mp h
      obtain ⟨rfl, rfl⟩ := Prod.mk.inj (Option.some.inj h)
      exact { hx with
        lockF := by simp [FPc.holdsS]
        lockU := hx.unheldU hfree (by simp) (by simp)
        condF := by simp [FPc.waits] }
  | endUnlock =>
      obtain ⟨rfl, rfl⟩ := Prod.mk.inj (Option.some.inj h)
      exact { hx with
        lockF := by simp [FPc.holdsS]
        lockU := hx.unheldU (hx.lockF.mpr rfl) (by simp) (by simp) }
  | exited => cases h

theorem fstep_seek {a : FAct α} {s s' : SlBuffer α} {f f' : FPc α} {u : UPc α}
    (hx : SeekInv s f u) (h : fstep a s f = some (s', f')) : SeekInv s' f' u := by
  cases fstep_cases h with
  | go h => exact fgo_seek hx h
  | store hp | readRet hp | spurious hp => exact { hx with fat := trivial }
  | seekRet off whence result dest =>
      have hreq := hx.busy (.inl rfl)
      obtain ⟨rfl, rfl⟩ := hx.fat
      obtain ⟨hlog, hreqs⟩ := hx.log.answer (hx.request (hx.req hreq)) hreq rfl result
      refine { hx with busy := fun _ => hreq, fat := trivial, log := hlog, numbered := ?_ }
      rw [List.map_append, List.length_append, List.length_singleton, List.range'_concat,
        hx.numbered, hreqs, List.map_singleton, Nat.one_mul, Nat.add_comm 1]
  | wake hparked => exact { hx with condF := by simp [FPc.waits] }

/-! ## The user's steps -/

theorem returned_read (trace : List (Event α)) (tell₀ : Int) (len : Nat) (bytes : List α)
    (epoch : Nat) (tell : Int) (eof : Bool) :
    returned (trace ++ [.read tell₀ len bytes epoch tell eof]) = returned trace := by
  rw [returned, List.filterMap_append]
  exact List.append_nil _

theorem returned_seek (trace : List (Event α)) (off whence code : Int) (found : Bool)
    (tell : Int) (eof : Bool) :
    returned (trace ++ [.seek off whence code found tell eof])
      = returned trace ++ if found then [(off, whence, code)] else [] := by
  rw [returned, List.filterMap_append]
  cases found <;> rfl

/-- The call returns what the inner seek gave. -/
theorem LogOk.ret {req answering answering' : Bool} {result result' code : Int}
    {served : List Served} {ret : List (Int × Int × Int)} {reqs : Nat} {off whence : Int}
    {found : Bool}
    (h : LogOk req answering result served ret reqs (if found then some (off, whence) else none))
    (hreq : req = false) (hcode : result = code) :
    LogOk req answering' result' served (ret ++ if found then [(off, whence, code)] else [])
      reqs none := by
  subst hcode
  cases found with
  | false =>
      cases h with
      | quiet hlog hreqs => exact .quiet (by rw [hlog]; exact (List.append_nil _).symm) hreqs
  | true =>
      cases h with
      | raised hraised _ _ _ => rw [hreq] at hraised; cases hraised
      | answered _ hlog hreqs => exact .quiet hlog hreqs

theorem FPc.result_eq {s : SlBuffer α} {f : FPc α} (hf : f.answering = false) :
    f.result s = s.seekResult := by
  cases f with
  | storeResult result => cases hf
  | _ => rfl

/-- What the filler's locals know, under a step of the user. -/
theorem FAt.stable {s s' : SlBuffer α} {f : FPc α} (h : FAt s f)
    (hparams : f.serving = true → s'.seekOff = s.seekOff ∧ s'.seekWhence = s.seekWhence)
    (hresult : f.answering = true → s'.seekResult = s.seekResult) : FAt s' f := by
  cases f with
  | loadWhence off => exact h.trans (hparams rfl).1.symm
  | innerSeek off whence =>
      exact ⟨h.1.trans (hparams rfl).1.symm, h.2.trans (hparams rfl).2.symm⟩
  | reset0 | reset1 | reset2 | reset3 => exact (hresult rfl).trans h
  | _ => trivial

/-- The lock in the hands of the user, or of nobody, is not the filler's. -/
theorem SeekInv.unheldF {s : SlBuffer α} {f : FPc α} {u : UPc α} (hx : SeekInv s f u)
    {l l' : Option Tid} (hl : s.seekLock = l) (hne : l ≠ some .producer)
    (hne' : l' ≠ some .producer) : l' = some .producer ↔ f.holdsS = true :=
  iff_of_false hne' (mt hx.lockF.mpr (hl ▸ hne))

theorem ugo_seek {s s' : SlBuffer α} {f : FPc α} {u u' : UPc α} (hx : SeekInv s f u)
    (h : ugo s u = some (s', u')) : SeekInv s' f u' := by
  have hat := hx.uat
  cases u with
  | idle => cases h
  | read tell₀ q =>
      rcases ugo_read h with ⟨k, rfl, rfl, rfl⟩ | ⟨-, cbuf, q', _, rfl, rfl⟩
      · split <;> exact { hx with uat := trivial }
      · exact { hx with uat := trivial }
  | readPos tell₀ k =>
      obtain ⟨rfl, rfl⟩ := Prod.mk.inj (Option.some.inj h)
      exact { hx with uat := trivial, log := by rw [returned_read]; exact hx.log }
  | storeOff off whence =>
      obtain ⟨rfl, rfl⟩ := Prod.mk.inj (Option.some.inj h)
      obtain ⟨-, hs, -⟩ := hx.idle rfl
      exact { hx with
        fat := hx.fat.stable (fun hf => absurd hf (by simp [hs])) fun _ => rfl
        uat := rfl }
  | storeWhence off whence =>
      obtain ⟨rfl, rfl⟩ := Prod.mk.inj (Option.some.inj h)
      obtain ⟨-, hs, -⟩ := hx.idle rfl
      exact { hx with
        fat := hx.fat.stable (fun hf => absurd hf (by simp [hs])) fun _ => rfl
        uat := ⟨hat, rfl⟩ }
  | seekLock off whence =>
      obtain ⟨hfree, h⟩ := Option.ite_none_right_eq_some.mp h
      obtain ⟨rfl, rfl⟩ := Prod.mk.inj (Option.some.inj h)
      exact { hx with
        lockF := hx.unheldF hfree nofun nofun
        lockU := by simp [UPc.holdsS] }
  | testStarted off whence =>
      obtain ⟨rfl, rfl⟩ := Prod.mk.inj (Option.some.inj h)
      split
      · next hst => exact { hx with uat := ⟨hat, hst⟩ }
      · next hst => exact { hx with uat := ⟨hat, by simpa using hst⟩ }
  | setReq off whence =>
      obtain ⟨rfl, rfl⟩ := Prod.mk.inj (Option.some.inj h)
      obtain ⟨-, -, ha⟩ := hx.idle rfl
      refine { hx with req := fun _ => rfl, busy := fun _ => rfl, uat := ⟨hat.1, rfl⟩, log := ?_ }
      cases hx.log with
      | quiet hlog hreqs => exact .raised rfl ha hlog (by rw [hreqs])
  | closeRead off whence q =>
      rcases ugo_closeRead h with ⟨code, rfl, rfl, rfl⟩ | ⟨-, cbuf, q', _, rfl, rfl⟩
      · exact { hx with uat := hat }
      · exact { hx with uat := hat }
  | signalFiller off whence =>
      obtain ⟨rfl, rfl⟩ := Prod.mk.inj (Option.some.inj h)
      exact { hx with condF := (Wait.signal_eq_out _).trans hx.condF, uat := hat.1 }
  | testReq off whence =>
      obtain ⟨rfl, rfl⟩ := Prod.mk.inj (Option.some.inj h)
      split
      · next hreq => exact { hx with uat := ⟨hat, hreq⟩ }
      · next hreq => exact { hx with req := fun hr => absurd hr hreq, uat := trivial }
  | wait off whence =>
      obtain ⟨rfl, rfl⟩ := Prod.mk.inj (Option.some.inj h)
      exact { hx with
        lockF := hx.unheldF (hx.lockU.mpr rfl) nofun nofun
        lockU := by simp [UPc.holdsS]
        condU := by simp [UPc.waits]
        uat := hat.1 }
  | parked off whence =>
      obtain ⟨⟨-, hfree⟩, h⟩ := Option.ite_none_right_eq_some.mp h
      obtain ⟨rfl, rfl⟩ := Prod.mk.inj (Option.some.inj h)
      exact { hx with
        lockF := hx.unheldF hfree nofun nofun
        lockU := by simp [UPc.holdsS]
        condU := by simp [UPc.waits] }
  | innerSeek off whence => cases h
  | storeResult off whence result =>
      obtain ⟨rfl, rfl⟩ := Prod.mk.inj (Option.some.inj h)
      obtain ⟨-, -, ha⟩ := hx.idle rfl
      refine { hx with
        fat := hx.fat.stable (fun _ => ⟨rfl, rfl⟩) fun hf => absurd hf (by simp [ha])
        uat := trivial, log := ?_ }
      cases hx.log with
      | quiet hlog hreqs => exact .quiet hlog hreqs
  | seekUnlock off whence found =>
      obtain ⟨rfl, rfl⟩ := Prod.mk.inj (Option.some.inj h)
      exact { hx with
        lockF := hx.unheldF (hx.lockU.mpr rfl) nofun nofun
        lockU := by simp [UPc.holdsS]
        uat := trivial }
  | testResult off whence found =>
      obtain ⟨rfl, rfl⟩ := Prod.mk.inj (Option.some.inj h)
      split
      · next hzero => exact { hx with uat := hzero }
      · next hne => exact { hx with uat := hne }
  | storePos off whence found =>
      obtain ⟨rfl, rfl⟩ := Prod.mk.inj (Option.some.inj h)
      exact { hx with uat := hat }
  | storeEof off whence found =>
      obtain ⟨rfl, rfl⟩ := Prod.mk.inj (Option.some.inj h)
      obtain ⟨hreq, -, ha⟩ := hx.idle rfl
      refine { hx with uat := trivial, log := ?_ }
      rw [returned_seek]
      exact hx.log.ret hreq ((FPc.result_eq ha).trans hat)
  | retResult off whence found =>
      obtain ⟨rfl, rfl⟩ := Prod.mk.inj (Option.some.inj h)
      obtain ⟨hreq, -, ha⟩ := hx.idle rfl
      refine { hx with uat := trivial, log := ?_ }
      rw [returned_seek]
      exact hx.log.ret hreq (FPc.result_eq ha)
  | endLock =>
      obtain ⟨hfree, h⟩ := Option.ite_none_right_eq_some.mp h
      obtain ⟨rfl, rfl⟩ := Prod.mk.inj (Option.some.inj h)
      exact { hx with
        lockF := hx.unheldF hfree nofun nofun
        lockU := by simp [UPc.holdsS] }
  | endClose q =>
      rcases ugo_endClose h with ⟨code, rfl, rfl, rfl⟩ | ⟨-, cbuf, q', _, rfl, rfl⟩
      · exact { hx with uat := trivial }
      · exact { hx with uat := trivial }
  | endSignal =>
      obtain ⟨rfl, rfl⟩ := Prod.mk.inj (Option.some.inj h)
      exact { hx with condF := (Wait.signal_eq_out _).trans hx.condF }
  | endUnlock =>
      obtain ⟨rfl, rfl⟩ := Prod.mk.inj (Option.some.inj h)
      exact { hx with
        lockF := hx.unheldF (hx.lockU.mpr rfl) nofun nofun
        lockU := by simp [UPc.holdsS] }
  | join =>
      obtain ⟨_, h⟩ := Option.ite_none_right_eq_some.mp h
      obtain ⟨rfl, rfl⟩ := Prod.mk.inj (Option.some.inj h)
      exact { hx with uat := trivial }
  | destroyed => cases h

theorem ustep_seek {a : UAct α} {s s' : SlBuffer α} {f : FPc α} {u u' : UPc α}
    (hx : SeekInv s f u) (h : ustep a s u = some (s', u')) : SeekInv s' f u' := by
  cases ustep_cases h with
  | go h => exact ugo_seek hx h
  | call r => cases r <;> exact { hx with uat := trivial }
  | seekRet off whence result dest => exact { hx with uat := hx.uat }
  | spurious hq => exact { hx with uat := trivial }
  | wake hparked => exact { hx with condU := by simp [UPc.waits] }

/-! ## Runs -/

theorem SeekInv.start (cb : Circbuf α) (step : Nat) :
    SeekInv (.fresh cb step) .startLock .idle where
  lockF := by simp [SlBuffer.fresh, FPc.holdsS]
  lockU := by simp [SlBuffer.fresh, UPc.holdsS]
  condF := by simp [SlBuffer.fresh, FPc.waits]
  condU := by simp [SlBuffer.fresh, UPc.waits]
  started := by simp [SlBuffer.fresh, FPc.starting]
  req := nofun
  busy := by simp [FPc.serving, FPc.answering]
  fat := trivial
  uat := trivial
  numbered := rfl
  log := .quiet rfl rfl

theorem seekInv_of_reach {c step : Nat} {ok : Stream α → BAct α → Prop} {x : Stream α}
    (h : (buffered α c step).Reach ok x) : SeekInv x.s x.f x.u := by
  refine h.invariant (I := fun x => SeekInv x.s x.f x.u) ?_ ?_
  · rintro _ ⟨env, others, s, hs, -, rfl⟩
    obtain ⟨cb, -, -, rfl⟩ := slBufferCreate2_eq hs
    exact .start cb step
  intro x a x' _ hx _ hstep
  rcases streamStep_cases hstep with ⟨b, rfl, hb, hu⟩ | ⟨b, rfl, hb, hf⟩
  · rw [hu]; exact fstep_seek hx hb
  · rw [hf]; exact ustep_seek hx hb

/-- The log entries with the number of a request. -/
def SlBuffer.servedFor (s : SlBuffer α) (n : Nat) : List Served :=
  s.served.filter fun e => e.req == n

/-- The last entry of a log numbered from 1 is the only one of its number. -/
theorem servedFor_last {s : SlBuffer α} {ret : List (Int × Int × Int)} {off whence result : Int}
    (hnum : s.served.map (·.req) = List.range' 1 s.served.length)
    (hlog : answers s.served = ret ++ [(off, whence, result)]) (hreqs : s.reqs = s.served.length) :
    s.servedFor s.reqs = [⟨s.reqs, off, whence, result⟩] := by
  have hne : s.served ≠ [] := by
    rintro hnil
    rw [hnil] at hlog
    simp [answers] at hlog
  obtain ⟨init, e, hserved⟩ := List.eq_nil_or_concat s.served |>.resolve_left hne
  rw [List.concat_eq_append] at hserved
  rw [hserved, List.map_append, List.length_append, List.length_singleton, List.range'_concat,
    List.map_singleton] at hnum
  obtain ⟨hinit, hlast⟩ := List.append_inj' hnum rfl
  rw [answers, hserved, List.map_append, List.map_singleton] at hlog
  obtain ⟨-, hentry⟩ := List.append_inj' hlog rfl
  have hn : s.reqs = init.length + 1 := by
    rw [hreqs, hserved, List.length_append, List.length_singleton]
  have hreq : e.req = s.reqs := by
    rw [hn]
    have := List.cons.inj hlast
    omega
  have hold : init.filter (fun e => e.req == s.reqs) = [] := by
    refine List.filter_eq_nil_iff.mpr fun e' he' => ?_
    have hmem : e'.req ∈ List.range' 1 init.length := hinit ▸ List.mem_map_of_mem he'
    have := List.mem_range'_1.mp hmem
    simp only [beq_iff_eq]
    omega
  have he : e = ⟨s.reqs, off, whence, result⟩ := by
    obtain ⟨hoff, hrest⟩ := Prod.mk.inj (List.cons.inj hentry).1
    obtain ⟨hwhence, hresult⟩ := Prod.mk.inj hrest
    cases e
    simp_all
  rw [SlBuffer.servedFor, hserved, List.filter_append, hold, he]
  simp

/-- **Each request is served exactly once, and the reset is exclusive.**
In every reachable state: the calls that returned gave back what the
inner seeks gave, one inner seek for one call in order, with the call's
own arguments; a call that has seen its request cleared has had exactly
one inner seek, with its own arguments, and its result is the one in the
field that the call acts on; the filler makes an inner seek only for an
outstanding request that has had none; and while the filler is inside
`circbuf_reset`, the user is in its wait. -/
theorem seek_served_once (c step : Nat) (x : Stream α)
    (h : (buffered α c step).Reach Lts.Any x) :
    (returned x.s.trace <+: answers x.s.served
        ∧ x.s.served.length ≤ (returned x.s.trace).length + 1)
      ∧ (∀ off whence, x.u.request = some (off, whence) → x.u.awaits = false →
        x.s.servedFor x.s.reqs = [⟨x.s.reqs, off, whence, x.s.seekResult⟩])
      ∧ (∀ result dest x', streamStep (.filler (.seekRet result dest)) x = some x' →
        x.s.seekRequested = true ∧ x.s.servedFor x.s.reqs = []
          ∧ ∃ off whence, x.f = .innerSeek off whence ∧ x.u.request = some (off, whence))
      ∧ (x.f.resetting = true →
        (∃ off whence, x.u = .parked off whence) ∧ ∀ p, x.f ≠ .write p) := by
  have hx := seekInv_of_reach h
  refine ⟨?_, ?_, ?_, ?_⟩
  · have hlog := hx.log
    generalize x.u.request = call at hlog
    cases hlog with
    | quiet hlog _ | raised _ _ hlog _ =>
        have hlen := congrArg List.length hlog
        rw [answers, List.length_map] at hlen
        rw [hlog]
        exact ⟨List.prefix_rfl, by omega⟩
    | answered _ hlog _ =>
        have hlen := congrArg List.length hlog
        rw [answers, List.length_map, List.length_append, List.length_singleton] at hlen
        rw [hlog]
        exact ⟨List.prefix_append _ _, by omega⟩
  · intro off whence hreq haw
    obtain ⟨hno, -, ha⟩ := hx.idle haw
    have hlog := hx.log
    rw [hreq] at hlog
    cases hlog with
    | raised hraised _ _ _ => rw [hno] at hraised; cases hraised
    | answered _ hlog hreqs =>
        rw [FPc.result_eq ha] at hlog
        exact servedFor_last hx.numbered hlog hreqs
  · intro result dest x' hstep
    obtain ⟨⟨s', f'⟩, hf, -⟩ := Option.map_eq_some_iff.mp hstep
    cases hpc : x.f with
    | innerSeek off whence =>
        have hreq := hx.busy (by rw [hpc]; exact .inl rfl)
        have hat := hx.fat
        rw [hpc] at hat
        refine ⟨hreq, ?_, off, whence, rfl, by rw [hat.1, hat.2]; exact hx.request (hx.req hreq)⟩
        have hlog := hx.log
        rw [hx.request (hx.req hreq), hpc] at hlog
        cases hlog with
        | raised _ _ _ hreqs =>
            refine List.filter_eq_nil_iff.mpr fun e he => ?_
            have hmem : e.req ∈ List.range' 1 x.s.served.length :=
              hx.numbered ▸ List.mem_map_of_mem he
            have := List.mem_range'_1.mp hmem
            simp only [beq_iff_eq]
            omega
        | answered hno _ _ => cases hno hreq
    | _ => rw [hpc] at hf; cases hf
  · intro hreset
    have hboth : x.f.answering = true ∧ x.f.holdsS = true ∧ ∀ p, x.f ≠ .write p := by
      cases hpc : x.f with
      | reset0 | reset1 | reset2 | reset3 => exact ⟨rfl, rfl, nofun⟩
      | _ => rw [hpc] at hreset; cases hreset
    exact ⟨hx.parked hboth.1 hboth.2.1, hboth.2.2⟩

/-- A seek to 5 that the filler serves. -/
theorem seek_served_once_run :
    ∃ x : Stream Nat, x.u = .seekUnlock 5 slSeekSet true
      ∧ x.s.servedFor 1 = [⟨1, 5, slSeekSet, 0⟩] := by
  let acts : List (BAct Nat) := List.replicate 3 (.filler .go)
    ++ .user (.call (.seek 5 slSeekSet)) :: List.replicate 14 (.user .go)
    ++ List.replicate 5 (.filler .go) ++ .filler (.seekRet 0 5) :: List.replicate 10 (.filler .go)
    ++ List.replicate 2 (.user .go)
  have hrun : ∃ x, (buffered Nat 1 1).run acts
      ⟨.fresh ⟨fun _ => 0, 2, 0, 0, false, false⟩ 1, .startLock, .idle⟩ = some x
      ∧ x.u = .seekUnlock 5 slSeekSet true ∧ x.s.reqs = 1 ∧ x.s.seekResult = 0 :=
    ⟨_, rfl, rfl, rfl, rfl⟩
  obtain ⟨x, hrun, hu, hreqs, hresult⟩ := hrun
  have hreach : (buffered Nat 1 1).Reach Lts.Any x :=
    .run (fun _ _ _ => trivial) (.init ⟨.ample 0, true, _, rfl, by decide, rfl⟩) hrun
  have hserved := (seek_served_once 1 1 x hreach).2.1 5 slSeekSet (by rw [hu]; rfl)
    (by rw [hu]; rfl)
  rw [hreqs, hresult] at hserved
  exact ⟨x, hu, hserved⟩

end Streamlike
