import Streamlike.BufferEnd

/-!
# Where the handshake gets stuck

Runs in which the inner seeks return anything. A seek that fails leaves
reading closed with no request raised: the filler then closes writing and
leaves its loop (`StuckInv`), unless it finds another request before that.
So no one waits for data from a filler that has left, and the only
deadlock is a seek that raises its request after the filler has looked for
one: it waits for ever (`stuck_iff`).
-/

namespace Streamlike

variable {α : Type} {c step : Nat}

/-! ## The invariant -/

/-- The reset has begun, and the request is not cleared. -/
def FPc.reopened (s : SlBuffer α) : FPc α → Bool
  | .reset1 | .reset2 | .reset3 => true
  | .clearReq => decide (s.seekResult = 0)
  | _ => false

/-- On the way from an answered request to `circbuf_close_write`, when
`circbuf_write2` finds reading closed at its entry. -/
def FPc.toClose : FPc α → Bool
  | .signalUser | .seekUnlock | .endLock | .write (.entry _) | .closeWrite .close
  | .closeWrite .closeLock | .closeWrite .closeStore => true
  | .write (.ret _ n) => decide (n = 0)
  | _ => false

/-- In `sl_buffer_destroy`, reading has been closed. -/
def UPc.hasClosed (u : UPc α) : Bool := u.ending && u.closedR

/-- What the filler's place says about the two flags, after any results. -/
def DoneAt (wdone rdone : Bool) : FPc α → Prop
  | .closeWrite p => p.closedW = true → wdone = true
  | .testRead | .parked => wdone = true
  | .wait => wdone = true ∧ rdone = false
  | .loopQ => rdone = true
  | _ => True

/-- As `LiveInv`, for any results of the inner seeks. -/
structure StuckInv (s : SlBuffer α) (f : FPc α) (u : UPc α) : Prop where
  step : 0 < s.stepSize
  opened : f.reopened s = true → s.cbuf.cb.rdone = false
  closes : u.closedR = true → s.seekRequested = true ∨ u.ending = true → f.reopened s = false →
    s.cbuf.cb.rdone = true
  closed : s.cbuf.cb.rdone = true → (s.seekRequested = true ∨ u.hasClosed = true)
    ∨ s.cbuf.cb.wdone = true ∨ f.toClose = true
  done : DoneAt s.cbuf.cb.wdone s.cbuf.cb.rdone f
  fillerCond : s.fillerCond = .parked → s.cbuf.cb.rdone = false ∨ u.signalsF = true
  userCond : s.userCond = .parked → s.seekRequested = true ∨ f.signalsU = true
  exit : f.left = true → u.hasClosed = true ∨ s.cbuf.cb.wdone = true
  exited : f.left = true → s.exited = true

/-! ## The filler's steps -/

section Filler

variable {s s' : SlBuffer α} {f f' : FPc α} {u : UPc α}

/-- A step of `circbuf_write2` on a buffer that is closed for reading. -/
theorem pgo_toClose {sh sh' : Shared α} {p p' : PPc α} (hd : sh.cb.rdone = true)
    (h : pgo sh p = some (sh', p')) (hret : ∀ k n, p ≠ .ret k n)
    (hp : (FPc.write p).toClose = true) : (FPc.write p').toClose = true := by
  cases p with
  | entry k =>
      obtain ⟨rfl, rfl⟩ := Prod.mk.inj (Option.some.inj h)
      rw [if_pos hd]
      rfl
  | ret k n => exact absurd rfl (hret k n)
  | _ => cases hp

/-- A step of `circbuf_close_write`. -/
theorem pgo_closes {sh sh' : Shared α} {p p' : PPc α} (hp : p.closing = true)
    (h : pgo sh p = some (sh', p')) (hclosed : ∀ code, p ≠ .closed code)
    (hw : p.closedW = true → sh.cb.wdone = true) :
    (sh.cb.wdone = true → sh'.cb.wdone = true) ∧ (p'.closedW = true → sh'.cb.wdone = true)
      ∧ ((FPc.closeWrite p).toClose = true →
        sh'.cb.wdone = true ∨ (FPc.closeWrite p').toClose = true) := by
  cases p with
  | closed code => exact absurd rfl (hclosed code)
  | close =>
      obtain ⟨rfl, rfl⟩ := Prod.mk.inj (Option.some.inj h)
      split
      · next hd => exact ⟨id, fun _ => hd, fun _ => .inl hd⟩
      · exact ⟨id, (fun h => by cases h), fun _ => .inr rfl⟩
  | closeLock =>
      obtain ⟨_, h⟩ := Option.ite_none_right_eq_some.mp h
      obtain ⟨rfl, rfl⟩ := Prod.mk.inj (Option.some.inj h)
      exact ⟨id, (fun h => by cases h), fun _ => .inr rfl⟩
  | closeStore =>
      obtain ⟨rfl, rfl⟩ := Prod.mk.inj (Option.some.inj h)
      exact ⟨fun _ => rfl, fun _ => rfl, fun _ => .inl rfl⟩
  | closeSignal | closeUnlock =>
      obtain ⟨rfl, rfl⟩ := Prod.mk.inj (Option.some.inj h)
      exact ⟨id, fun _ => hw rfl, fun h => by cases h⟩
  | _ => cases hp

/-- A circbuf step of the filler, that leaves `rdone`. -/
theorem StuckInv.circF (hi : StuckInv s f u) (f' : FPc α) {cbuf : Shared α} {inner : Nat}
    (hrdone : cbuf.cb.rdone = s.cbuf.cb.rdone)
    (hwdone : s.cbuf.cb.wdone = true → cbuf.cb.wdone = true)
    (ho : f.reopened s = false) (ho' : f'.reopened s = false) (hs : f.signalsU = false)
    (hl : f'.left = false)
    (hclose : s.cbuf.cb.rdone = true → f.toClose = true →
      cbuf.cb.wdone = true ∨ f'.toClose = true)
    (hdone : DoneAt cbuf.cb.wdone s.cbuf.cb.rdone f') :
    StuckInv { s with cbuf, inner } f' u where
  step := hi.step
  opened := fun h => by cases ho'.symm.trans h
  closes := fun h₁ h₂ _ => hrdone.trans (hi.closes h₁ h₂ ho)
  closed := fun h => by
    have hd := hrdone ▸ h
    rcases hi.closed hd with hwhy | hw | htoClose
    · exact .inl hwhy
    · exact .inr (.inl (hwdone hw))
    · exact .inr (hclose hd htoClose)
  done := hrdone ▸ hdone
  fillerCond := fun h => (hi.fillerCond h).imp_left hrdone.trans
  userCond := fun h => .inl ((hi.userCond h).resolve_right (by simp [hs]))
  exit := fun h => by rw [hl] at h; cases h
  exited := fun h => by rw [hl] at h; cases h

theorem fgo_stuck (hx : SeekInv s f u) (hc : CircInv c s f u) (hi : StuckInv s f u)
    (h : fgo s f = some (s', f')) : StuckInv s' f' u := by
  have hdone := hi.done
  cases f with
  | startLock | seekLock | endLock =>
      obtain ⟨_, h⟩ := Option.ite_none_right_eq_some.mp h
      obtain ⟨rfl, rfl⟩ := Prod.mk.inj (Option.some.inj h)
      first | exact { hi with } | exact { hi with done := (fun h => by cases h) }
  | start | startUnlock | loadOff | loadWhence off | storeResult result | reset2 | endUnlock =>
      obtain ⟨rfl, rfl⟩ := Prod.mk.inj (Option.some.inj h)
      exact { hi with }
  | reset3 =>
      obtain ⟨rfl, rfl⟩ := Prod.mk.inj (Option.some.inj h)
      have hzero : s.seekResult = 0 := hx.fat
      exact { hi with
        opened := fun _ => hi.opened rfl
        closes := fun _ _ h => absurd (of_decide_eq_false h) (not_not.mpr hzero) }
  | loopR =>
      obtain ⟨rfl, rfl⟩ := Prod.mk.inj (Option.some.inj h)
      split
      · next hr => exact { hi with done := hr }
      · exact { hi with done := trivial }
  | loopQ =>
      rcases fgo_loopQ h with ⟨-, rfl, rfl⟩ | ⟨hreq, rfl, rfl⟩
      · exact { hi with done := trivial }
      · refine { hi with done := trivial, exit := fun _ => ?_, exited := fun _ => rfl }
        rcases hi.closed hdone with (hr | hclosed) | hw | htoClose
        · exact absurd hr hreq
        · exact .inl hclosed
        · exact .inr hw
        · cases htoClose
  | ifReq =>
      obtain ⟨rfl, rfl⟩ := Prod.mk.inj (Option.some.inj h)
      split
      · exact { hi with }
      · exact { hi with
          closed := fun hr => (hi.closed hr).imp_right (fun h => .inr rfl) }
  | innerSeek off whence => cases h
  | testResult =>
      obtain ⟨rfl, rfl⟩ := Prod.mk.inj (Option.some.inj h)
      split
      · exact { hi with }
      · next hres =>
        exact { hi with
          opened := fun h => absurd (of_decide_eq_true h) hres
          closes := fun h₁ h₂ _ => hi.closes h₁ h₂ rfl }
  | reset0 =>
      obtain ⟨rfl, rfl⟩ := Prod.mk.inj (Option.some.inj h)
      exact { hi with
        opened := fun _ => rfl
        closes := fun _ _ h => by cases h
        closed := fun h => by cases h
        done := trivial
        fillerCond := fun _ => .inl rfl }
  | reset1 =>
      obtain ⟨rfl, rfl⟩ := Prod.mk.inj (Option.some.inj h)
      exact { hi with
        closed := fun hr => by cases (hi.opened rfl).symm.trans hr
        done := trivial
        exit := fun h => by cases h }
  | clearReq =>
      obtain ⟨rfl, rfl⟩ := Prod.mk.inj (Option.some.inj h)
      obtain ⟨off, whence, rfl⟩ := hx.parked rfl rfl
      exact { hi with
        opened := fun h => by cases h
        closes := fun _ hwhy _ => by simp [UPc.ending] at hwhy
        closed := fun _ => .inr (.inr rfl)
        userCond := fun _ => .inr rfl }
  | signalUser =>
      obtain ⟨rfl, rfl⟩ := Prod.mk.inj (Option.some.inj h)
      exact { hi with userCond := fun hp => absurd hp (Wait.signal_ne_parked _) }
  | seekUnlock =>
      obtain ⟨rfl, rfl⟩ := Prod.mk.inj (Option.some.inj h)
      exact { hi with }
  | write p =>
      rcases fgo_write h with ⟨k, written, rfl, rfl, rfl⟩ | ⟨hret, cbuf, p', hp, rfl, rfl⟩
      · split
        · exact { hi with closed := fun hr => (hi.closed hr).imp_right fun _ => .inr rfl }
        · next hlt =>
          refine { hi with closed := fun hr => ?_ }
          rcases hi.closed hr with hwhy | hw | htoClose
          · exact .inl hwhy
          · exact .inr (.inl hw)
          · rw [of_decide_eq_true htoClose] at hlt
            exact absurd hi.step hlt
      · have hframe := (pgo_ok (hc.ring (fun h => by cases h)) hc.prod hp).frame
        have hwdone := write2_wdone (a := .go) hc.fcall hp
        exact hi.circF (.write p') hframe.rdone hwdone.trans rfl rfl rfl rfl
          (fun hd ht => .inr (pgo_toClose hd hp hret ht)) trivial
  | closeWrite p =>
      rcases fgo_closeWrite h with ⟨code, rfl, rfl, rfl⟩ | ⟨hclosed, cbuf, p', hp, rfl, rfl⟩
      · exact { hi with done := hdone rfl }
      · have hframe := (pgo_ok (hc.ring (fun h => by cases h)) hc.prod hp).frame
        obtain ⟨hkeep, hnew, hclose⟩ := pgo_closes hc.fcall hp hclosed hdone
        exact hi.circF (.closeWrite p') hframe.rdone hkeep rfl rfl rfl rfl (fun _ => hclose) hnew
  | testRead =>
      obtain ⟨rfl, rfl⟩ := Prod.mk.inj (Option.some.inj h)
      split
      · exact { hi with done := trivial }
      · next hr => exact { hi with done := ⟨hdone, Bool.eq_false_iff.mpr hr⟩ }
  | wait =>
      obtain ⟨rfl, rfl⟩ := Prod.mk.inj (Option.some.inj h)
      exact { hi with done := hdone.1, fillerCond := fun _ => .inl hdone.2 }
  | parked =>
      obtain ⟨_, h⟩ := Option.ite_none_right_eq_some.mp h
      obtain ⟨rfl, rfl⟩ := Prod.mk.inj (Option.some.inj h)
      exact { hi with fillerCond := fun h => by cases h }
  | exited => cases h

/-- A step of the filler's `circbuf_write2` in the inner read, or parked. -/
theorem write_stuck {a : PAct α} {p p' : PPc α} {cbuf : Shared α}
    (hc : CircInv c s (.write p) u) (hi : StuckInv s (.write p) u)
    (hp : pstep a s.cbuf p = some (cbuf, p')) (hclose : (FPc.write p).toClose = false) (n : Nat) :
    StuckInv { s with cbuf, inner := s.inner + n } (.write p') u := by
  have hframe := (pstep_ok (hc.ring (fun h => by cases h)) hc.prod hp).frame
  have hwdone := write2_wdone hc.fcall hp
  exact hi.circF (.write p') hframe.rdone hwdone.trans rfl rfl rfl rfl
    (fun _ ht => by cases hclose.symm.trans ht) trivial

theorem fstep_stuck {a : FAct α} (hx : SeekInv s f u) (hc : CircInv c s f u)
    (hi : StuckInv s f u) (h : fstep a s f = some (s', f')) : StuckInv s' f' u := by
  cases fstep_cases h with
  | go h => exact fgo_stuck hx hc hi h
  | store hp =>
      refine write_stuck hc hi hp ?_ 0
      cases pstep_cases hp with
      | store b hlt => rfl
  | readRet hp =>
      refine write_stuck hc hi hp ?_ _
      cases pstep_cases hp with
      | wret hle => rfl
  | spurious hp =>
      refine write_stuck hc hi hp ?_ 0
      cases pstep_cases hp with
      | spurious hparked => rfl
  | seekRet off whence result dest => exact { hi with }
  | wake hparked => exact { hi with fillerCond := fun h => by cases h }

end Filler

/-! ## The user's steps -/

section User

variable {s s' : SlBuffer α} {f : FPc α} {u u' : UPc α}

/-- The filler's place says the same after reading has been closed. -/
theorem DoneAt.mono {wdone rdone rdone' : Bool} (h : DoneAt wdone rdone f)
    (hr : rdone = true → rdone' = true) (hwait : f = .wait → rdone' = rdone) :
    DoneAt wdone rdone' f := by
  cases f with
  | wait => exact ⟨h.1, (hwait rfl).trans h.2⟩
  | loopQ => exact hr h
  | _ => exact h

/-- A circbuf step of the user, that leaves the flags. -/
theorem StuckInv.circU (hi : StuckInv s f u) (u' : UPc α) {cbuf : Shared α}
    (hwdone : cbuf.cb.wdone = s.cbuf.cb.wdone) (hrdone : cbuf.cb.rdone = s.cbuf.cb.rdone)
    (hc : u'.closedR = u.closedR) (he : u'.ending = u.ending) (hs : u'.signalsF = u.signalsF) :
    StuckInv { s with cbuf } f u' where
  step := hi.step
  opened := fun h => hrdone.trans (hi.opened h)
  closes := fun h₁ h₂ h₃ => hrdone.trans (hi.closes (hc ▸ h₁) (he ▸ h₂) h₃)
  closed := fun h => by
    unfold UPc.hasClosed
    rw [hc, he, hwdone]
    exact hi.closed (hrdone ▸ h)
  done := by
    have hold := hi.done
    rw [← hwdone, ← hrdone] at hold
    exact hold
  fillerCond := fun h => by rw [hs]; exact (hi.fillerCond h).imp_left hrdone.trans
  userCond := hi.userCond
  exit := fun h => by
    unfold UPc.hasClosed
    rw [hc, he, hwdone]
    exact hi.exit h
  exited := hi.exited

theorem FPc.reopened_holdsS (h : f.reopened s = true) : f.holdsS = true := by
  cases f with
  | reset1 | reset2 | reset3 | clearReq => rfl
  | _ => cases h

/-- A step of the user's `circbuf_close_read`, from `u` to `u'`, which only
differ in the step reached. -/
theorem StuckInv.closeU (hx : SeekInv s f u) (hi : StuckInv s f u) (u' : UPc α)
    {cbuf : Shared α} {q q' : CPc α} (hwdone : cbuf.cb.wdone = s.cbuf.cb.wdone)
    (hstep : (cbuf.cb.rdone = s.cbuf.cb.rdone ∧ (q.closedR = true → q'.closedR = true)
        ∧ (q'.closedR = true → q.closedR = true ∨ s.cbuf.cb.rdone = true))
      ∨ (q'.closedR = true ∧ cbuf.cb.rdone = true))
    (hq : u.closedR = q.closedR ∧ u.signalsF = q.closedR)
    (hq' : u'.closedR = q'.closedR ∧ u'.signalsF = q'.closedR) (he : u'.ending = u.ending)
    (hwhy : s.seekRequested = true ∨ u.ending = true) (hheld : u.holdsS = true) :
    StuckInv { s with cbuf } f u' := by
  have hkeeps (hkeep : q.closedR = true → q'.closedR = true) (h : u.hasClosed = true) :
      u'.hasClosed = true := by
    obtain ⟨hend, hcl⟩ := Bool.and_eq_true_iff.mp h
    exact Bool.and_eq_true_iff.mpr ⟨he.trans hend, hq'.1.trans (hkeep (hq.1 ▸ hcl))⟩
  rcases hstep with ⟨hrdone, hkeep, hnew⟩ | ⟨hclosed, hrdone⟩
  · exact
      { step := hi.step
        opened := fun h => hrdone.trans (hi.opened h)
        closes := fun h₁ h₂ h₃ => by
          rcases hnew (hq'.1 ▸ h₁) with hc | hr
          · exact hrdone.trans (hi.closes (hq.1.trans hc) (he ▸ h₂) h₃)
          · exact hrdone.trans hr
        closed := fun h => by
          rw [hwdone]
          exact (hi.closed (hrdone ▸ h)).imp_left (Or.imp_right (hkeeps hkeep))
        done := by
          have hdone := hi.done
          rw [← hwdone, ← hrdone] at hdone
          exact hdone
        fillerCond := fun h => by
          rcases hi.fillerCond h with hr | hs
          · exact .inl (hrdone.trans hr)
          · exact .inr (hq'.2.trans (hkeep (hq.2 ▸ hs)))
        userCond := hi.userCond
        exit := fun h => by
          rw [hwdone]
          exact (hi.exit h).imp_left (hkeeps hkeep)
        exited := hi.exited }
  · have hends (h : u.ending = true) : u'.hasClosed = true :=
      Bool.and_eq_true_iff.mpr ⟨he.trans h, hq'.1.trans hclosed⟩
    exact
      { step := hi.step
        opened := fun h => by
          have hfree := hx.excl (FPc.reopened_holdsS h)
          rw [hheld] at hfree
          cases hfree
        closes := fun _ _ _ => hrdone
        closed := fun _ => .inl (hwhy.imp_right hends)
        done := by
          have hdone := hi.done
          rw [← hwdone] at hdone
          refine hdone.mono (fun _ => hrdone) ?_
          rintro rfl
          have hfree := hx.excl rfl
          rw [hheld] at hfree
          cases hfree
        fillerCond := fun _ => .inr (hq'.2.trans hclosed)
        userCond := hi.userCond
        exit := fun h => by
          rw [hwdone]
          exact (hi.exit h).imp_left fun hcl => hends (Bool.and_eq_true_iff.mp hcl).1
        exited := hi.exited }

theorem ugo_stuck (hx : SeekInv s f u) (hc : CircInv c s f u) (hi : StuckInv s f u)
    (h : ugo s u = some (s', u')) : StuckInv s' f u' := by
  cases u with
  | idle => cases h
  | read tell₀ q =>
      rcases ugo_read h with ⟨k, rfl, rfl, rfl⟩ | ⟨hret, cbuf, q', hq, rfl, rfl⟩
      · split <;> exact { hi with }
      · have hframe := (cgo_ok (hc.ring (hx.not_reset3 nofun)) hc.cons hq).frame
        obtain ⟨len, pre, hread⟩ := hc.ucall
        exact hi.circU (.read tell₀ q') hframe.wdone (read_rdone hread hq) rfl rfl rfl
  | closeRead off whence q =>
      rcases ugo_closeRead h with ⟨code, rfl, rfl, rfl⟩ | ⟨hclosed, cbuf, q', hq, rfl, rfl⟩
      · exact { hi with }
      · have hframe := (cgo_ok (hc.ring (hx.not_reset3 nofun)) hc.cons hq).frame
        exact hi.closeU hx (.closeRead off whence q') hframe.wdone (cgo_closedR hc.ucall hq hclosed)
          ⟨rfl, rfl⟩ ⟨rfl, rfl⟩ rfl (.inl hx.uat.2) rfl
  | endClose q =>
      rcases ugo_endClose h with ⟨code, rfl, rfl, rfl⟩ | ⟨hclosed, cbuf, q', hq, rfl, rfl⟩
      · exact { hi with }
      · have hframe := (cgo_ok (hc.ring (hx.not_reset3 nofun)) hc.cons hq).frame
        exact hi.closeU hx (.endClose q') hframe.wdone (cgo_closedR hc.ucall hq hclosed)
          ⟨rfl, rfl⟩ ⟨rfl, rfl⟩ rfl (.inr rfl) rfl
  | readPos tell₀ k | storeOff off whence | storeWhence off whence | storePos off whence found
  | storeEof off whence found | retResult off whence found | seekUnlock off whence found
  | endUnlock =>
      obtain ⟨rfl, rfl⟩ := Prod.mk.inj (Option.some.inj h)
      exact { hi with }
  | seekLock off whence | join =>
      obtain ⟨_, h⟩ := Option.ite_none_right_eq_some.mp h
      obtain ⟨rfl, rfl⟩ := Prod.mk.inj (Option.some.inj h)
      exact { hi with }
  | testStarted off whence | testResult off whence found =>
      obtain ⟨rfl, rfl⟩ := Prod.mk.inj (Option.some.inj h)
      split <;> exact { hi with }
  | setReq off whence =>
      obtain ⟨rfl, rfl⟩ := Prod.mk.inj (Option.some.inj h)
      exact { hi with
        closes := fun h => by cases h
        closed := fun _ => .inl (.inl rfl)
        userCond := fun _ => .inl rfl }
  | signalFiller off whence | endSignal =>
      obtain ⟨rfl, rfl⟩ := Prod.mk.inj (Option.some.inj h)
      exact { hi with fillerCond := fun hp => absurd hp (Wait.signal_ne_parked _) }
  | testReq off whence =>
      obtain ⟨rfl, rfl⟩ := Prod.mk.inj (Option.some.inj h)
      split
      · exact { hi with }
      · exact { hi with closes := fun h => by cases h }
  | wait off whence =>
      obtain ⟨rfl, rfl⟩ := Prod.mk.inj (Option.some.inj h)
      exact { hi with userCond := fun _ => .inl hx.uat.2 }
  | parked off whence =>
      obtain ⟨_, h⟩ := Option.ite_none_right_eq_some.mp h
      obtain ⟨rfl, rfl⟩ := Prod.mk.inj (Option.some.inj h)
      exact { hi with userCond := fun h => by cases h }
  | innerSeek off whence => cases h
  | storeResult off whence result =>
      obtain ⟨rfl, rfl⟩ := Prod.mk.inj (Option.some.inj h)
      obtain ⟨-, -, ha⟩ := hx.idle rfl
      refine { hi with opened := fun hf => ?_, closes := fun h => by cases h }
      cases f with
      | reset1 | reset2 | reset3 | clearReq => cases ha
      | _ => cases hf
  | endLock =>
      obtain ⟨_, h⟩ := Option.ite_none_right_eq_some.mp h
      obtain ⟨rfl, rfl⟩ := Prod.mk.inj (Option.some.inj h)
      exact { hi with closes := fun h => by cases h }
  | destroyed => cases h

theorem ustep_stuck {a : UAct α} (hx : SeekInv s f u) (hc : CircInv c s f u)
    (hi : StuckInv s f u) (h : ustep a s u = some (s', u')) : StuckInv s' f u' := by
  cases ustep_cases h with
  | go h => exact ugo_stuck hx hc hi h
  | call r => cases r <;> exact { hi with }
  | seekRet off whence result dest => exact { hi with }
  | spurious hq =>
      cases cstep_cases hq with
      | spurious hparked => exact hi.circU (.read _ (.parked _)) rfl rfl rfl rfl rfl
  | wake hparked => exact { hi with userCond := fun h => by cases h }

end User

/-! ## What both can be asleep on -/

theorem stuckInv_of_reach {x : Stream α} (h : (buffered α c step).Reach Lts.Any x) :
    StuckInv x.s x.f x.u := by
  refine h.invariant (I := fun x => StuckInv x.s x.f x.u) ?_ ?_
  · rintro _ ⟨env, others, s, hs, -, rfl⟩
    obtain ⟨cb, hcb, hstep, rfl⟩ := slBufferCreate2_eq hs
    obtain ⟨-, hr, hw⟩ := circbufInit_open hcb
    exact ⟨hstep, (fun h => by cases h), (fun h => by cases h),
      (fun h => by cases hr.symm.trans h), trivial, (fun h => by cases h), (fun h => by cases h),
      (fun h => by cases h), (fun h => by cases h)⟩
  intro x a x' hreach hi _ hstep
  have hx := seekInv_of_reach hreach
  have hc := circInv_of_reach hreach
  rcases streamStep_cases hstep with ⟨b, rfl, hb, hu⟩ | ⟨b, rfl, hb, hf⟩
  · rw [hu]; exact fstep_stuck hx hc hi hb
  · rw [hf]; exact ustep_stuck hx hc hi hb

section Asleep

variable {s : SlBuffer α} {f : FPc α} {u : UPc α}

/-- The filler is asleep on a full buffer, or at the end of the data, with
reading open; or it has left. -/
theorem StuckInv.filler (hc : CircInv c s f u) (hi : StuckInv s f u) (hf : f.Asleep s)
    (hu : u.Asleep s) :
    (s.cbuf.cb.rdone = false ∧ (s.cbuf.cb.wdone = true ∨ circbufGetLength s.cbuf.cb = c))
      ∨ f = .exited := by
  have hquiet : u.signalsF = false ∧ u.circ.signalsR = false := by
    cases u with
    | read tell₀ q => cases q <;> first | exact ⟨rfl, rfl⟩ | cases hu
    | parked off whence | join | destroyed => exact ⟨rfl, rfl⟩
    | _ => cases hu
  cases f with
  | write p =>
      cases p with
      | parked k =>
          obtain ⟨hfull, hopen⟩ := (hc.wake.rcond hf).resolve_right (by simp [hquiet.2])
          refine .inl ⟨hopen, .inr ?_⟩
          rw [hfull, hc.size, Nat.add_sub_cancel]
      | _ => cases hf
  | parked =>
      have hopen := (hi.fillerCond hf).resolve_right (by simp [hquiet.1])
      exact .inl ⟨hopen, .inl hi.done⟩
  | exited => exact .inr rfl
  | _ => cases hf

/-- The user is asleep on an empty buffer that is open for writing, on a
request, or in the join; on the last two with reading closed. -/
theorem StuckInv.user (hc : CircInv c s f u) (hi : StuckInv s f u) (hf : f.Asleep s)
    (hu : u.Asleep s) (hne : u ≠ .destroyed) :
    (u.hasClosed = false ∧ s.cbuf.cb.wdone = false ∧ circbufGetLength s.cbuf.cb = 0)
      ∨ (s.cbuf.cb.rdone = true ∧ ((s.seekRequested = true ∧ ∃ off whence, u = .parked off whence)
        ∨ s.exited = false)) := by
  have hquiet : f.signalsU = false ∧ f.circ.signalsW = false ∧ f.reopened s = false := by
    cases f with
    | write p => cases p <;> first | exact ⟨rfl, rfl, rfl⟩ | cases hf
    | parked | exited => exact ⟨rfl, rfl, rfl⟩
    | _ => cases hf
  obtain ⟨hsig, hsigW, hopened⟩ := hquiet
  cases u with
  | read tell₀ q =>
      cases q with
      | parked k =>
          obtain ⟨hempty, hopen⟩ := (hc.wake.wcond hu).resolve_right (by simp [hsigW])
          exact .inl ⟨rfl, hopen, by rw [circbufGetLength_eq, hempty, ByteRing.used_self]⟩
      | _ => cases hu
  | parked off whence =>
      have hreq := (hi.userCond hu).resolve_right (by simp [hsig])
      exact .inr ⟨hi.closes rfl (.inl hreq) hopened, .inl ⟨hreq, off, whence, rfl⟩⟩
  | join => exact .inr ⟨hi.closes rfl (.inr rfl) hopened, .inr hu⟩
  | destroyed => exact absurd rfl hne
  | _ => cases hu

/-- Both are asleep only on a request that has come too late. -/
theorem StuckInv.both (hc : CircInv c s f u) (hi : StuckInv s f u) (hpos : 0 < c)
    (hf : f.Asleep s) (hu : u.Asleep s) (hne : u ≠ .destroyed) :
    f = .exited ∧ s.seekRequested = true ∧ ∃ off whence, u = .parked off whence := by
  rcases hi.filler hc hf hu with ⟨hopen, hwhy⟩ | rfl
  · rcases hi.user hc hf hu hne with ⟨-, hw, hempty⟩ | ⟨hclosed, -⟩
    · rcases hwhy with hw' | hfull
      · rw [hw] at hw'; cases hw'
      · omega
    · rw [hopen] at hclosed; cases hclosed
  · have hex := hi.exited rfl
    rcases hi.user hc hf hu hne with ⟨hno, hw, -⟩ | ⟨-, ⟨hreq, hu⟩ | hno⟩
    · rcases hi.exit rfl with hcl | hw'
      · rw [hno] at hcl; cases hcl
      · rw [hw] at hw'; cases hw'
    · exact ⟨rfl, hreq, hu⟩
    · rw [hno] at hex; cases hex

end Asleep

/-! ## The main result -/

/-- The user is parked on `seek_cond`, with its request raised, and the filler
has left its loop. -/
def Stream.TooLate (x : Stream α) : Prop :=
  x.f = .exited ∧ x.s.seekRequested = true
    ∧ ∃ off whence, x.u = .parked off whence ∧ x.s.userCond = .parked

/-- No thread can take a step. -/
theorem Stream.TooLate.no_moves {x : Stream α} (h : x.TooLate) : ¬ x.Moves := by
  obtain ⟨hf, -, off, whence, hu, hcond⟩ := h
  rintro ⟨a, hgenuine, -, hsome⟩
  obtain ⟨⟨s', f', u'⟩, hy⟩ := Option.isSome_iff_exists.mp hsome
  rcases streamStep_cases hy with ⟨b, rfl, hb, -⟩ | ⟨b, rfl, hb, -⟩
  · exact fstep_stopped hb hf
  · rw [hu] at hb
    cases ustep_cases hb with
    | go h =>
        obtain ⟨⟨hwoken, -⟩, -⟩ := Option.ite_none_right_eq_some.mp h
        cases hcond.symm.trans hwoken
    | wake hparked => exact hgenuine

/-- A request that is raised when the filler has left stays. -/
theorem requested_of_steps {x y : Stream α} (h : (buffered α c step).Steps Lts.Any x y)
    (hf : x.f = .exited) (hreq : x.s.seekRequested = true) :
    y.f = .exited ∧ y.s.seekRequested = true := by
  induction h with
  | refl => exact ⟨hf, hreq⟩
  | tail _ _ hs ih =>
      obtain ⟨hf', hreq'⟩ := ih
      rcases streamStep_cases hs with ⟨b, rfl, hb, -⟩ | ⟨b, rfl, hb, hsame⟩
      · exact absurd hf' (fstep_stopped hb)
      · exact ⟨hsame.trans hf', (ustep_exited hb).2.2 hreq'⟩

/-- **The only deadlock is a seek that comes too late.** Whatever the inner
seeks return: until `sl_buffer_destroy` returns, one of the threads can take
a step that is not a spurious wake-up, unless the user is parked in a seek
and the filler has left its loop. Once a request is raised that the filler
has left behind, the call that raised it never returns. -/
theorem stuck_iff (c step : Nat) {x : Stream α} (h : (buffered α c step).Reach Lts.Any x)
    (hne : x.u ≠ .destroyed) :
    (¬ x.Moves ↔ x.TooLate)
      ∧ (x.f = .exited → x.s.seekRequested = true →
        ∀ y, (buffered α c step).Steps Lts.Any x y → y.f = .exited ∧ y.u.awaits = true) := by
  have hx := seekInv_of_reach h
  have hc := circInv_of_reach h
  refine ⟨⟨fun hno => ?_, Stream.TooLate.no_moves⟩, fun hf hreq y hy => ?_⟩
  · have hf : x.f.Blocked x.s := by_contra fun hf => hno (Stream.moves_filler hc.fcall hf)
    have hu : x.u.Blocked x.s := by_contra fun hu => hno (Stream.moves_user hu)
    obtain ⟨hfa, hua⟩ := asleep_of_blocked hx hc hf hu
    obtain ⟨hleft, hreq, off, whence, hparked⟩ :=
      (stuckInv_of_reach h).both hc (bufferCapacity_pos h) hfa hua hne
    rw [hparked] at hua
    exact ⟨hleft, hreq, off, whence, hparked, hua⟩
  · obtain ⟨hf', hreq'⟩ := requested_of_steps hy hf hreq
    exact ⟨hf', (seekInv_of_reach (h.steps hy)).req hreq'⟩

/-- A seek fails, the filler leaves, and the user seeks again. -/
theorem stuck_iff_run :
    ∃ x : Stream Nat, (buffered Nat 1 1).Reach Lts.Any x ∧ ¬ x.Moves
      ∧ ∀ y, (buffered Nat 1 1).Steps Lts.Any x y → y.f = .exited ∧ y.u.awaits = true := by
  let x₀ : Stream Nat := ⟨.fresh ⟨fun _ => 0, 2, 0, 0, false, false⟩ 1, .startLock, .idle⟩
  let raises : List (BAct Nat) := List.replicate 3 (.filler .go)
    ++ .user (.call (.seek 5 slSeekSet)) :: List.replicate 14 (.user .go)
  let fails : List (BAct Nat) := List.replicate 5 (.filler .go) ++ .filler (.seekRet (-1) 0)
    :: List.replicate 19 (.filler .go)
  let again : List (BAct Nat) := List.replicate 5 (.user .go)
    ++ .user (.call (.seek 6 slSeekSet)) :: List.replicate 10 (.user .go)
  have hrun : ((buffered Nat 1 1).run (raises ++ fails ++ again) x₀).map (fun x =>
      (x.f.left, x.s.seekRequested, x.u.waits, x.s.userCond))
      = some (true, true, true, .parked) := by decide +kernel
  obtain ⟨⟨s, f, u⟩, hx, heq⟩ := Option.map_eq_some_iff.mp hrun
  simp only [Prod.mk.injEq] at heq
  obtain ⟨hleft, hreq, hwaits, hcond⟩ := heq
  have hreach : (buffered Nat 1 1).Reach Lts.Any ⟨s, f, u⟩ :=
    .run (fun _ _ _ => trivial) (.init ⟨.ample 0, true, _, rfl, by decide, rfl⟩) hx
  obtain rfl : f = .exited := by
    cases f with
    | exited => rfl
    | _ => cases hleft
  cases u with
  | parked off whence =>
      obtain ⟨hstuck, hforever⟩ := stuck_iff 1 1 hreach (fun h => by cases h)
      exact ⟨_, hreach, hstuck.mpr ⟨rfl, hreq, off, whence, rfl, hcond⟩, hforever rfl hreq⟩
  | _ => cases hwaits

end Streamlike
