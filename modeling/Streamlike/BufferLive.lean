import Streamlike.BufferCirc

/-!
# The handshake never deadlocks

Runs in which every inner seek of the filler succeeds. Reading is closed
from the `circbuf_close_read` of a seek until the filler's reset, and from
that of `sl_buffer_destroy` on, and at no other time; writing is closed
only while the filler is between its `circbuf_close_write` and the next
reset (`LiveInv`). So each thread that is parked without a wake-up waits
for something that the other has not done, and the two waits contradict
each other.
-/

namespace Streamlike

variable {α : Type} {c step : Nat}

/-! ## Program points -/

/-- `circbuf_close_read` has stored its flag. -/
def CPc.closedR : CPc α → Bool
  | .closeSignal | .closeUnlock | .closed _ => true
  | _ => false

/-- `circbuf_close_write` has stored its flag. -/
def PPc.closedW : PPc α → Bool
  | .closeSignal | .closeUnlock | .closed _ => true
  | _ => false

/-- The user's seek or destroy has closed reading. -/
def UPc.closedR : UPc α → Bool
  | .closeRead _ _ q | .endClose q => q.closedR
  | .signalFiller .. | .testReq .. | .wait .. | .parked .. | .endSignal | .endUnlock | .join
  | .destroyed => true
  | _ => false

/-- Inside `sl_buffer_destroy`, with the lock taken. -/
def UPc.ending : UPc α → Bool
  | .endClose _ | .endSignal | .endUnlock | .join | .destroyed => true
  | _ => false

/-- The user has closed reading and signals `seek_cond` next. -/
def UPc.signalsF : UPc α → Bool
  | .closeRead _ _ q | .endClose q => q.closedR
  | .signalFiller .. | .endSignal => true
  | _ => false

/-- The filler has cleared the request and signals `seek_cond` next. -/
def FPc.signalsU : FPc α → Bool
  | .signalUser => true
  | _ => false

/-- The filler has left its loop. -/
def FPc.left : FPc α → Bool
  | .exited => true
  | _ => false

/-! ## The invariant -/

/-- What the filler's place says about the two flags. -/
def FlagsAt (wdone rdone req : Bool) : FPc α → Prop
  | .startLock | .start | .startUnlock | .write _ | .reset2 | .reset3 | .clearReq | .signalUser
  | .seekUnlock | .endLock => wdone = false
  | .closeWrite p => p.closedW = wdone
  | .testRead | .parked => wdone = true
  | .wait => wdone = true ∧ rdone = false
  | .endUnlock => wdone = true ∧ rdone = true
  | .loopR => wdone = true → rdone = true
  | .loopQ => rdone = true
  | .ifReq => wdone = true → req = true
  | _ => True

structure LiveInv (s : SlBuffer α) (f : FPc α) (u : UPc α) : Prop where
  result : f.answering = true → f.result s = 0
  opened : f.opened = true → s.cbuf.cb.rdone = false
  closes : u.closedR = true → s.seekRequested = true ∨ u.ending = true → f.opened = false →
    s.cbuf.cb.rdone = true
  closed : s.cbuf.cb.rdone = true →
    u.closedR = true ∧ (s.seekRequested = true ∨ u.ending = true)
  flags : FlagsAt s.cbuf.cb.wdone s.cbuf.cb.rdone s.seekRequested f
  fillerCond : s.fillerCond = .parked → s.cbuf.cb.rdone = false ∨ u.signalsF = true
  userCond : s.userCond = .parked → s.seekRequested = true ∨ f.signalsU = true
  exit : f.left = true → u.closedR = true ∧ u.ending = true
  exited : f.left = true → s.exited = true

/-! ## The flags in a circbuf step -/

/-- `circbuf_close_write` on a buffer that is open. -/
theorem pgo_closedW {s s' : Shared α} {p p' : PPc α} (hp : p.closing = true)
    (h : pgo s p = some (s', p')) (hclosed : ∀ code, p ≠ .closed code)
    (hw : p.closedW = s.cb.wdone) : p'.closedW = s'.cb.wdone := by
  cases p with
  | closed code => exact absurd rfl (hclosed code)
  | close =>
      obtain ⟨rfl, rfl⟩ := Prod.mk.inj (Option.some.inj h)
      rw [← hw]
      rfl
  | closeLock =>
      obtain ⟨_, h⟩ := Option.ite_none_right_eq_some.mp h
      obtain ⟨rfl, rfl⟩ := Prod.mk.inj (Option.some.inj h)
      exact hw
  | closeStore =>
      obtain ⟨rfl, rfl⟩ := Prod.mk.inj (Option.some.inj h)
      rfl
  | closeSignal | closeUnlock =>
      obtain ⟨rfl, rfl⟩ := Prod.mk.inj (Option.some.inj h)
      exact hw
  | _ => cases hp

theorem read_rdone {len : Nat} {pre : List α} {s s' : Shared α} {q q' : CPc α}
    (hr : q.Read len pre) (h : cgo s q = some (s', q')) : s'.cb.rdone = s.cb.rdone := by
  rcases cgo_rdone h with hsame | rfl
  · exact hsame
  · obtain ⟨k, hk, -⟩ := hr
    cases hk

/-- A step of `circbuf_close_read`: the flag as it was, or stored. -/
theorem cgo_closedR {s s' : Shared α} {q q' : CPc α} (hq : q.closing = true)
    (h : cgo s q = some (s', q')) (hclosed : ∀ code, q ≠ .closed code) :
    (s'.cb.rdone = s.cb.rdone ∧ (q.closedR = true → q'.closedR = true)
        ∧ (q'.closedR = true → q.closedR = true ∨ s.cb.rdone = true))
      ∨ (q'.closedR = true ∧ s'.cb.rdone = true) := by
  cases q with
  | closed code => exact absurd rfl (hclosed code)
  | close =>
      obtain ⟨rfl, rfl⟩ := Prod.mk.inj (Option.some.inj h)
      split
      · next hd => exact .inl ⟨rfl, nofun, fun _ => .inr hd⟩
      · exact .inl ⟨rfl, nofun, nofun⟩
  | closeLock =>
      obtain ⟨_, h⟩ := Option.ite_none_right_eq_some.mp h
      obtain ⟨rfl, rfl⟩ := Prod.mk.inj (Option.some.inj h)
      exact .inl ⟨rfl, nofun, nofun⟩
  | closeStore =>
      obtain ⟨rfl, rfl⟩ := Prod.mk.inj (Option.some.inj h)
      exact .inr ⟨rfl, rfl⟩
  | closeSignal | closeUnlock =>
      obtain ⟨rfl, rfl⟩ := Prod.mk.inj (Option.some.inj h)
      exact .inl ⟨rfl, fun _ => rfl, fun _ => .inl rfl⟩
  | _ => cases hq

/-! ## The filler's steps -/

/-- A circbuf step of the filler, that leaves `rdone`. -/
theorem LiveInv.circF {s : SlBuffer α} {f : FPc α} {u : UPc α} (hi : LiveInv s f u)
    (f' : FPc α) {cbuf : Shared α} {inner : Nat} (hrdone : cbuf.cb.rdone = s.cbuf.cb.rdone)
    (hf' : f'.answering = false) (ho : f'.opened = f.opened) (hs : f.signalsU = false)
    (hl : f'.left = false)
    (hflags : FlagsAt cbuf.cb.wdone s.cbuf.cb.rdone s.seekRequested f') :
    LiveInv { s with cbuf, inner } f' u where
  result := fun h => by rw [hf'] at h; cases h
  opened := fun h => hrdone.trans (hi.opened (ho ▸ h))
  closes := fun h₁ h₂ h₃ => hrdone.trans (hi.closes h₁ h₂ (ho ▸ h₃))
  closed := fun h => hi.closed (hrdone ▸ h)
  flags := hrdone ▸ hflags
  fillerCond := fun h => (hi.fillerCond h).imp_left hrdone.trans
  userCond := fun h => .inl ((hi.userCond h).resolve_right (by simp [hs]))
  exit := fun h => by rw [hl] at h; cases h
  exited := fun h => by rw [hl] at h; cases h

theorem fgo_live {s s' : SlBuffer α} {f f' : FPc α} {u : UPc α} (hx : SeekInv s f u)
    (hc : CircInv c s f u) (hi : LiveInv s f u) (h : fgo s f = some (s', f')) :
    LiveInv s' f' u := by
  have hflags := hi.flags
  cases f with
  | startLock | seekLock | endLock =>
      obtain ⟨_, h⟩ := Option.ite_none_right_eq_some.mp h
      obtain ⟨rfl, rfl⟩ := Prod.mk.inj (Option.some.inj h)
      first | exact { hi with } | exact { hi with flags := hflags.symm }
  | start | loadOff | loadWhence off | storeResult result | reset2 | reset3 =>
      obtain ⟨rfl, rfl⟩ := Prod.mk.inj (Option.some.inj h)
      exact { hi with }
  | startUnlock =>
      obtain ⟨rfl, rfl⟩ := Prod.mk.inj (Option.some.inj h)
      exact { hi with flags := fun hw => absurd (hw.symm.trans hflags) (by decide) }
  | loopR =>
      obtain ⟨rfl, rfl⟩ := Prod.mk.inj (Option.some.inj h)
      split
      · next hr => exact { hi with flags := hr }
      · next hr => exact { hi with flags := fun hw => absurd (hflags hw) hr }
  | loopQ =>
      rcases fgo_loopQ h with ⟨hreq, rfl, rfl⟩ | ⟨hreq, rfl, rfl⟩
      · exact { hi with flags := fun _ => hreq }
      · obtain ⟨hclosed, hwhy⟩ := hi.closed hflags
        exact { hi with
          flags := trivial
          exit := fun _ => ⟨hclosed, hwhy.resolve_left hreq⟩
          exited := fun _ => rfl }
  | ifReq =>
      obtain ⟨rfl, rfl⟩ := Prod.mk.inj (Option.some.inj h)
      split
      · exact { hi with flags := trivial }
      · next hreq => exact { hi with flags := Bool.eq_false_iff.mpr fun hw => hreq (hflags hw) }
  | innerSeek off whence => cases h
  | testResult =>
      obtain ⟨rfl, rfl⟩ := Prod.mk.inj (Option.some.inj h)
      have hzero : s.seekResult = 0 := hi.result rfl
      rw [if_pos hzero]
      exact { hi with }
  | reset0 =>
      obtain ⟨rfl, rfl⟩ := Prod.mk.inj (Option.some.inj h)
      exact { hi with
        opened := fun _ => rfl
        closes := fun _ _ h => by cases h
        closed := fun h => by cases h
        flags := trivial
        fillerCond := fun _ => .inl rfl }
  | reset1 =>
      obtain ⟨rfl, rfl⟩ := Prod.mk.inj (Option.some.inj h)
      exact { hi with flags := rfl }
  | clearReq =>
      obtain ⟨rfl, rfl⟩ := Prod.mk.inj (Option.some.inj h)
      obtain ⟨off, whence, rfl⟩ := hx.parked rfl rfl
      have hopen : s.cbuf.cb.rdone = false := hi.opened rfl
      exact { hi with
        result := fun h => by cases h
        opened := fun h => by cases h
        closes := fun _ hwhy _ => by simp [UPc.ending] at hwhy
        closed := fun hr => by rw [hopen] at hr; cases hr
        userCond := fun _ => .inr rfl }
  | signalUser =>
      obtain ⟨rfl, rfl⟩ := Prod.mk.inj (Option.some.inj h)
      exact { hi with userCond := fun hp => absurd hp (Wait.signal_ne_parked _) }
  | seekUnlock =>
      obtain ⟨rfl, rfl⟩ := Prod.mk.inj (Option.some.inj h)
      exact { hi with flags := hflags }
  | write p =>
      rcases fgo_write h with ⟨k, written, rfl, rfl, rfl⟩ | ⟨hret, cbuf, p', hp, rfl, rfl⟩
      · split
        · exact { hi with }
        · exact { hi with flags := fun hw => absurd (hw.symm.trans hflags) (by decide) }
      · have hframe := (pgo_ok (hc.ring (fun h => by cases h)) hc.prod hp).frame
        have hwdone := write2_wdone (a := .go) hc.fcall hp
        exact hi.circF (.write p') hframe.rdone rfl rfl rfl rfl (hwdone.trans hflags)
  | closeWrite p =>
      rcases fgo_closeWrite h with ⟨code, rfl, rfl, rfl⟩ | ⟨hclosed, cbuf, p', hp, rfl, rfl⟩
      · exact { hi with flags := hflags.symm }
      · have hframe := (pgo_ok (hc.ring (fun h => by cases h)) hc.prod hp).frame
        exact hi.circF (.closeWrite p') hframe.rdone rfl rfl rfl rfl
          (pgo_closedW hc.fcall hp hclosed hflags)
  | testRead =>
      obtain ⟨rfl, rfl⟩ := Prod.mk.inj (Option.some.inj h)
      split
      · next hr => exact { hi with flags := ⟨hflags, hr⟩ }
      · next hr => exact { hi with flags := ⟨hflags, by simpa using hr⟩ }
  | wait =>
      obtain ⟨rfl, rfl⟩ := Prod.mk.inj (Option.some.inj h)
      exact { hi with flags := hflags.1, fillerCond := fun _ => .inl hflags.2 }
  | parked =>
      obtain ⟨_, h⟩ := Option.ite_none_right_eq_some.mp h
      obtain ⟨rfl, rfl⟩ := Prod.mk.inj (Option.some.inj h)
      exact { hi with fillerCond := fun h => by cases h }
  | endUnlock =>
      obtain ⟨rfl, rfl⟩ := Prod.mk.inj (Option.some.inj h)
      exact { hi with flags := fun _ => hflags.2 }
  | exited => cases h

/-- Every inner seek succeeds. -/
def SeeksSucceed (_ : Stream α) : BAct α → Prop
  | .filler (.seekRet result _) | .user (.seekRet result _) => result = 0
  | _ => True

/-- Every inner seek made by the filler succeeds. -/
def ServesSucceed (_ : Stream α) : BAct α → Prop
  | .filler (.seekRet result _) => result = 0
  | _ => True

theorem SeeksSucceed.serves {x : Stream α} {a : BAct α} (h : SeeksSucceed x a) :
    ServesSucceed x a := by
  cases a with
  | filler b => cases b <;> exact h
  | user b => trivial

/-- A step of the filler's `circbuf_write2`. -/
theorem write_live {a : PAct α} {s : SlBuffer α} {p p' : PPc α} {u : UPc α} {cbuf : Shared α}
    (hc : CircInv c s (.write p) u) (hi : LiveInv s (.write p) u)
    (hp : pstep a s.cbuf p = some (cbuf, p')) (n : Nat) :
    LiveInv { s with cbuf, inner := s.inner + n } (.write p') u := by
  have hframe := (pstep_ok (hc.ring nofun) hc.prod hp).frame
  have hwdone := write2_wdone hc.fcall hp
  exact hi.circF (.write p') hframe.rdone rfl rfl rfl rfl (hwdone.trans hi.flags)

theorem fstep_live {x : Stream α} {a : FAct α} {s s' : SlBuffer α} {f f' : FPc α} {u : UPc α}
    (hx : SeekInv s f u) (hc : CircInv c s f u) (hi : LiveInv s f u)
    (hok : ServesSucceed x (.filler a)) (h : fstep a s f = some (s', f')) : LiveInv s' f' u := by
  cases fstep_cases h with
  | go h => exact fgo_live hx hc hi h
  | store hp | spurious hp => exact write_live hc hi hp 0
  | readRet hp => exact write_live hc hi hp _
  | seekRet off whence result dest => exact { hi with result := fun _ => hok }
  | wake hparked => exact { hi with fillerCond := nofun }

/-! ## The user's steps -/

/-- The filler's place says the same after flags have been raised. -/
theorem FlagsAt.mono {wdone rdone rdone' req req' : Bool} {f : FPc α}
    (h : FlagsAt wdone rdone req f) (hr : rdone = true → rdone' = true)
    (hq : req = true → req' = true) (hwait : f = .wait → rdone' = rdone) :
    FlagsAt wdone rdone' req' f := by
  cases f with
  | wait => exact ⟨h.1, (hwait rfl).trans h.2⟩
  | endUnlock => exact ⟨h.1, hr h.2⟩
  | loopR => exact fun hw => hr (h hw)
  | loopQ => exact hr h
  | ifReq => exact fun hw => hq (h hw)
  | _ => exact h

/-- A circbuf step of the user. -/
theorem LiveInv.circU {s : SlBuffer α} {f : FPc α} {u : UPc α} (hi : LiveInv s f u) (u' : UPc α)
    {cbuf : Shared α} (hwdone : cbuf.cb.wdone = s.cbuf.cb.wdone)
    (hrdone : cbuf.cb.rdone = s.cbuf.cb.rdone) (hc : u'.closedR = u.closedR)
    (he : u'.ending = u.ending) (hs : u'.signalsF = u.signalsF) :
    LiveInv { s with cbuf } f u' where
  result := hi.result
  opened := fun h => hrdone.trans (hi.opened h)
  closes := fun h₁ h₂ h₃ => hrdone.trans (hi.closes (hc ▸ h₁) (he ▸ h₂) h₃)
  closed := fun h => by rw [hc, he]; exact hi.closed (hrdone ▸ h)
  flags := by
    have hold := hi.flags
    rw [← hwdone, ← hrdone] at hold
    exact hold
  fillerCond := fun h => by rw [hs]; exact (hi.fillerCond h).imp_left hrdone.trans
  userCond := hi.userCond
  exit := fun h => by rw [hc, he]; exact hi.exit h
  exited := hi.exited

theorem FPc.opened_answering {f : FPc α} (hf : f.opened = true) :
    f.answering = true ∧ f.holdsS = true := by
  cases f with
  | reset1 | reset2 | reset3 | clearReq => exact ⟨rfl, rfl⟩
  | _ => cases hf

/-- A step of the user's `circbuf_close_read`, from `u` to `u'`, which only
differ in the step reached. -/
theorem LiveInv.closeU {s : SlBuffer α} {f : FPc α} {u : UPc α} (hx : SeekInv s f u)
    (hi : LiveInv s f u) (u' : UPc α) {cbuf : Shared α} {q q' : CPc α}
    (hwdone : cbuf.cb.wdone = s.cbuf.cb.wdone)
    (hstep : (cbuf.cb.rdone = s.cbuf.cb.rdone ∧ (q.closedR = true → q'.closedR = true)
        ∧ (q'.closedR = true → q.closedR = true ∨ s.cbuf.cb.rdone = true))
      ∨ (q'.closedR = true ∧ cbuf.cb.rdone = true))
    (hq : u.closedR = q.closedR ∧ u.signalsF = q.closedR)
    (hq' : u'.closedR = q'.closedR ∧ u'.signalsF = q'.closedR) (he : u'.ending = u.ending)
    (hwhy : s.seekRequested = true ∨ u.ending = true) (hheld : u.holdsS = true) :
    LiveInv { s with cbuf } f u' := by
  rw [← he] at hwhy
  rcases hstep with ⟨hrdone, hkeep, hnew⟩ | ⟨hclosed, hrdone⟩
  · exact
      { result := hi.result
        opened := fun h => hrdone.trans (hi.opened h)
        closes := fun h₁ h₂ h₃ => by
          rcases hnew (hq'.1 ▸ h₁) with hc | hr
          · exact hrdone.trans (hi.closes (hq.1.trans hc) (he ▸ h₂) h₃)
          · exact hrdone.trans hr
        closed := fun h => by
          have hc := hkeep (hq.1 ▸ (hi.closed (hrdone ▸ h)).1)
          exact ⟨hq'.1.trans hc, hwhy⟩
        flags := by
          have hflags := hi.flags
          rw [← hwdone, ← hrdone] at hflags
          exact hflags
        fillerCond := fun h => by
          rcases hi.fillerCond h with hr | hs
          · exact .inl (hrdone.trans hr)
          · exact .inr (hq'.2.trans (hkeep (hq.2 ▸ hs)))
        userCond := hi.userCond
        exit := fun h => by
          obtain ⟨hc, hend⟩ := hi.exit h
          exact ⟨hq'.1.trans (hkeep (hq.1 ▸ hc)), he.trans hend⟩
        exited := hi.exited }
  · exact
      { result := hi.result
        opened := fun h => by
          obtain ⟨ha, hl⟩ := FPc.opened_answering h
          rw [hx.excl hl] at hheld
          cases hheld
        closes := fun _ _ _ => hrdone
        closed := fun _ => ⟨hq'.1.trans hclosed, hwhy⟩
        flags := by
          have hflags := hi.flags
          rw [← hwdone] at hflags
          refine hflags.mono (fun _ => hrdone) id ?_
          rintro rfl
          rw [hx.excl rfl] at hheld
          cases hheld
        fillerCond := fun _ => .inr (hq'.2.trans hclosed)
        userCond := hi.userCond
        exit := fun h => ⟨hq'.1.trans hclosed, he.trans (hi.exit h).2⟩
        exited := hi.exited }

theorem ugo_live {s s' : SlBuffer α} {f : FPc α} {u u' : UPc α} (hx : SeekInv s f u)
    (hc : CircInv c s f u) (hi : LiveInv s f u) (h : ugo s u = some (s', u')) :
    LiveInv s' f u' := by
  cases u with
  | idle => cases h
  | read tell₀ q =>
      rcases ugo_read h with ⟨k, rfl, rfl, rfl⟩ | ⟨hret, cbuf, q', hq, rfl, rfl⟩
      · split <;> exact { hi with }
      · have hframe := (cgo_ok (hc.ring (hx.not_reset3 nofun)) hc.cons hq).frame
        obtain ⟨len, pre, hread⟩ := hc.ucall
        exact hi.circU (.read tell₀ q') hframe.wdone (read_rdone hread hq) rfl rfl rfl
  | closeRead off whence q =>
      rcases ugo_closeRead h with ⟨code, rfl, rfl, rfl⟩ | ⟨hclosed, cbuf, q', hq, rfl, rfl⟩
      · exact { hi with }
      · have hframe := (cgo_ok (hc.ring (hx.not_reset3 nofun)) hc.cons hq).frame
        exact hi.closeU hx (.closeRead off whence q') hframe.wdone (cgo_closedR hc.ucall hq hclosed)
          ⟨rfl, rfl⟩ ⟨rfl, rfl⟩ rfl (.inl hx.uat.2) rfl
  | endClose q =>
      rcases ugo_endClose h with ⟨code, rfl, rfl, rfl⟩ | ⟨hclosed, cbuf, q', hq, rfl, rfl⟩
      · exact { hi with }
      · have hframe := (cgo_ok (hc.ring (hx.not_reset3 nofun)) hc.cons hq).frame
        exact hi.closeU hx (.endClose q') hframe.wdone (cgo_closedR hc.ucall hq hclosed)
          ⟨rfl, rfl⟩ ⟨rfl, rfl⟩ rfl (.inr rfl) rfl
  | readPos tell₀ k | storeOff off whence | storeWhence off whence | storePos off whence found
  | storeEof off whence found | retResult off whence found | seekUnlock off whence found
  | endUnlock =>
      obtain ⟨rfl, rfl⟩ := Prod.mk.inj (Option.some.inj h)
      exact { hi with }
  | seekLock off whence | join =>
      obtain ⟨_, h⟩ := Option.ite_none_right_eq_some.mp h
      obtain ⟨rfl, rfl⟩ := Prod.mk.inj (Option.some.inj h)
      exact { hi with }
  | testStarted off whence | testResult off whence found =>
      obtain ⟨rfl, rfl⟩ := Prod.mk.inj (Option.some.inj h)
      split <;> exact { hi with }
  | setReq off whence =>
      obtain ⟨rfl, rfl⟩ := Prod.mk.inj (Option.some.inj h)
      exact { hi with
        closes := nofun
        closed := fun hr => absurd (hi.closed hr).1 (by simp [UPc.closedR])
        flags := hi.flags.mono id (fun _ => rfl) fun _ => rfl
        userCond := fun _ => .inl rfl }
  | signalFiller off whence | endSignal =>
      obtain ⟨rfl, rfl⟩ := Prod.mk.inj (Option.some.inj h)
      exact { hi with fillerCond := fun hp => absurd hp (Wait.signal_ne_parked _) }
  | testReq off whence =>
      obtain ⟨rfl, rfl⟩ := Prod.mk.inj (Option.some.inj h)
      split
      · exact { hi with }
      · next hno =>
        have hopen : s.cbuf.cb.rdone = false := Bool.eq_false_iff.mpr fun hr => by
          rcases hi.closed hr with ⟨-, hreq | hend⟩
          · exact hno hreq
          · cases hend
        exact { hi with
          closes := nofun
          closed := fun hr => by rw [hopen] at hr; cases hr
          fillerCond := fun _ => .inl hopen
          exit := fun hl => absurd (hi.exit hl).2 (by simp [UPc.ending]) }
  | wait off whence =>
      obtain ⟨rfl, rfl⟩ := Prod.mk.inj (Option.some.inj h)
      exact { hi with userCond := fun _ => .inl hx.uat.2 }
  | parked off whence =>
      obtain ⟨_, h⟩ := Option.ite_none_right_eq_some.mp h
      obtain ⟨rfl, rfl⟩ := Prod.mk.inj (Option.some.inj h)
      exact { hi with userCond := nofun }
  | innerSeek off whence => cases h
  | storeResult off whence result =>
      obtain ⟨rfl, rfl⟩ := Prod.mk.inj (Option.some.inj h)
      obtain ⟨-, -, ha⟩ := hx.idle rfl
      exact { hi with result := fun hf => by rw [ha] at hf; cases hf }
  | endLock =>
      obtain ⟨_, h⟩ := Option.ite_none_right_eq_some.mp h
      obtain ⟨rfl, rfl⟩ := Prod.mk.inj (Option.some.inj h)
      exact { hi with
        closes := nofun
        closed := fun hr => absurd (hi.closed hr).1 (by simp [UPc.closedR])
        exit := fun hl => absurd (hi.exit hl).1 (by simp [UPc.closedR]) }
  | destroyed => cases h

theorem ustep_live {a : UAct α} {s s' : SlBuffer α} {f : FPc α} {u u' : UPc α}
    (hx : SeekInv s f u) (hc : CircInv c s f u) (hi : LiveInv s f u)
    (h : ustep a s u = some (s', u')) : LiveInv s' f u' := by
  cases ustep_cases h with
  | go h => exact ugo_live hx hc hi h
  | call r => cases r <;> exact { hi with }
  | seekRet off whence result dest => exact { hi with }
  | spurious hq =>
      cases cstep_cases hq with
      | spurious hparked => exact hi.circU (.read _ (.parked _)) rfl rfl rfl rfl rfl
  | wake hparked => exact { hi with userCond := nofun }

theorem liveInv_of_reach {x : Stream α} (h : (buffered α c step).Reach ServesSucceed x) :
    LiveInv x.s x.f x.u := by
  refine h.invariant (I := fun x => LiveInv x.s x.f x.u) ?_ ?_
  · rintro _ ⟨env, others, s, hs, -, rfl⟩
    obtain ⟨cb, hcb, -, rfl⟩ := slBufferCreate2_eq hs
    obtain ⟨-, hr, hw⟩ := circbufInit_open hcb
    exact ⟨nofun, nofun, nofun, fun h => absurd (hr.symm.trans h) nofun, hw, nofun, nofun, nofun,
      nofun⟩
  intro x a x' hreach hi ha hstep
  have hx := seekInv_of_reach hreach
  have hc := circInv_of_reach hreach
  rcases streamStep_cases hstep with ⟨b, rfl, hb, hu⟩ | ⟨b, rfl, hb, hf⟩
  · rw [hu]; exact fstep_live hx hc hi ha hb
  · rw [hf]; exact ustep_live hx hc hi hb

/-! ## What a thread can be blocked on -/

/-- Neither the program nor the writer can go on. -/
def PPc.Blocked (s : Shared α) : PPc α → Prop
  | .idle => True
  | .lockR _ => s.rlock ≠ none
  | .parked _ => s.rcond ≠ .woken ∨ s.rlock ≠ none
  | .lockW .. | .closeLock => s.wlock ≠ none
  | _ => False

def CPc.Blocked (s : Shared α) : CPc α → Prop
  | .idle => True
  | .lockW _ => s.wlock ≠ none
  | .parked _ => s.wcond ≠ .woken ∨ s.wlock ≠ none
  | .lockR .. | .closeLock => s.rlock ≠ none
  | _ => False

def FPc.Blocked (s : SlBuffer α) : FPc α → Prop
  | .startLock | .seekLock | .endLock => s.seekLock ≠ none
  | .write p | .closeWrite p => p.Blocked s.cbuf
  | .parked => s.fillerCond ≠ .woken ∨ s.seekLock ≠ none
  | .exited => True
  | _ => False

def UPc.Blocked (s : SlBuffer α) : UPc α → Prop
  | .seekLock .. | .endLock => s.seekLock ≠ none
  | .read _ q | .closeRead _ _ q | .endClose q => q.Blocked s.cbuf
  | .parked .. => s.userCond ≠ .woken ∨ s.seekLock ≠ none
  | .join => s.exited = false
  | .destroyed => True
  | _ => False

theorem pstep_enabled {s : Shared α} {p : PPc α} (h : ¬ p.Blocked s) :
    (pgo s p).isSome ∨ (pstep (.wret 0) s p).isSome := by
  cases p with
  | idle => exact absurd trivial h
  | lockR k | lockW k woff n got | closeLock =>
      exact .inl (Option.isSome_ite.mpr (not_not.mp h))
  | parked k =>
      obtain ⟨hwoken, hfree⟩ := not_or.mp h
      exact .inl (Option.isSome_ite.mpr ⟨not_not.mp hwoken, not_not.mp hfree⟩)
  | copy k b m todo => cases todo <;> exact .inl rfl
  | writer k woff total got todo =>
      cases todo with
      | nil => exact .inl rfl
      | cons r todo => exact .inr (Option.isSome_ite.mpr (Nat.zero_le r.length))
  | _ => exact .inl rfl

theorem cgo_enabled {s : Shared α} {q : CPc α} (h : ¬ q.Blocked s) : (cgo s q).isSome := by
  cases q with
  | idle => exact absurd trivial h
  | lockW k | lockR d roff | closeLock => exact Option.isSome_ite.mpr (not_not.mp h)
  | parked k =>
      obtain ⟨hwoken, hfree⟩ := not_or.mp h
      exact Option.isSome_ite.mpr ⟨not_not.mp hwoken, not_not.mp hfree⟩
  | copy k m todo => cases todo <;> rfl
  | _ => rfl

/-- A step that is not a spurious wake-up. -/
def BAct.Genuine : BAct α → Prop
  | .filler .spurious | .user .spurious => False
  | _ => True

/-- One of the threads can take a step other than a spurious wake-up. -/
def Stream.Moves (x : Stream α) : Prop :=
  ∃ a : BAct α, a.Genuine ∧ SeeksSucceed x a ∧ (streamStep a x).isSome

theorem Stream.moves_of_filler {x : Stream α} {a : FAct α} (hg : (BAct.filler a).Genuine)
    (hs : SeeksSucceed x (.filler a)) (h : (fstep a x.s x.f).isSome) : x.Moves :=
  ⟨.filler a, hg, hs, by rw [streamStep, Option.isSome_map]; exact h⟩

theorem Stream.moves_of_user {x : Stream α} {a : UAct α} (hg : (BAct.user a).Genuine)
    (hs : SeeksSucceed x (.user a)) (h : (ustep a x.s x.u).isSome) : x.Moves :=
  ⟨.user a, hg, hs, by rw [streamStep, Option.isSome_map]; exact h⟩

theorem Stream.moves_filler {x : Stream α} (hcall : x.f.CallOk x.s.stepSize)
    (h : ¬ x.f.Blocked x.s) : x.Moves := by
  obtain ⟨s, f, u⟩ := x
  have hgo : (fgo s f).isSome → Stream.Moves ⟨s, f, u⟩ := fun hs =>
    moves_of_filler (a := .go) trivial trivial hs
  cases f with
  | startLock | seekLock | endLock => exact hgo (Option.isSome_ite.mpr (not_not.mp h))
  | parked =>
      obtain ⟨hwoken, hfree⟩ := not_or.mp h
      exact hgo (Option.isSome_ite.mpr ⟨not_not.mp hwoken, not_not.mp hfree⟩)
  | loopQ =>
      refine hgo ?_
      by_cases hreq : s.seekRequested
      · exact congrArg Option.isSome (if_pos hreq)
      · exact congrArg Option.isSome (if_neg hreq)
  | innerSeek off whence => exact moves_of_filler (a := .seekRet 0 0) trivial rfl rfl
  | write p =>
      rcases pstep_enabled h with hp | hp
      · refine hgo ?_
        by_cases hret : ∃ k n, p = .ret k n
        · obtain ⟨k, n, rfl⟩ := hret
          rfl
        · rw [fgo_write_eq fun k n heq => hret ⟨k, n, heq⟩, Option.isSome_map]
          exact hp
      · exact moves_of_filler (a := .readRet 0) trivial trivial (Option.isSome_map.trans hp)
  | closeWrite p =>
      rcases pstep_enabled h with hp | hp
      · refine hgo ?_
        by_cases hclosed : ∃ code, p = .closed code
        · obtain ⟨code, rfl⟩ := hclosed
          rfl
        · rw [fgo_closeWrite_eq fun code heq => hclosed ⟨code, heq⟩, Option.isSome_map]
          exact hp
      · cases p with
        | writer k woff total got todo => cases hcall
        | _ => cases hp
  | exited => exact absurd trivial h
  | _ => exact hgo rfl

theorem Stream.moves_user {x : Stream α} (h : ¬ x.u.Blocked x.s) : x.Moves := by
  obtain ⟨s, f, u⟩ := x
  have hgo : (ugo s u).isSome → Stream.Moves ⟨s, f, u⟩ := fun hs =>
    moves_of_user (a := .go) trivial trivial hs
  cases u with
  | idle => exact moves_of_user (a := .call .destroy) trivial trivial rfl
  | seekLock off whence | endLock => exact hgo (Option.isSome_ite.mpr (not_not.mp h))
  | parked off whence =>
      obtain ⟨hwoken, hfree⟩ := not_or.mp h
      exact hgo (Option.isSome_ite.mpr ⟨not_not.mp hwoken, not_not.mp hfree⟩)
  | innerSeek off whence => exact moves_of_user (a := .seekRet 0 0) trivial rfl rfl
  | read tell₀ q =>
      have hq : (cgo s.cbuf q).isSome := cgo_enabled h
      refine hgo ?_
      by_cases hret : ∃ k, q = .ret k
      · obtain ⟨k, rfl⟩ := hret
        rfl
      · rw [ugo_read_eq fun k heq => hret ⟨k, heq⟩, Option.isSome_map]
        exact hq
  | closeRead off whence q =>
      have hq : (cgo s.cbuf q).isSome := cgo_enabled h
      refine hgo ?_
      by_cases hclosed : ∃ code, q = .closed code
      · obtain ⟨code, rfl⟩ := hclosed
        rfl
      · rw [ugo_closeRead_eq fun code heq => hclosed ⟨code, heq⟩, Option.isSome_map]
        exact hq
  | endClose q =>
      have hq : (cgo s.cbuf q).isSome := cgo_enabled h
      refine hgo ?_
      by_cases hclosed : ∃ code, q = .closed code
      · obtain ⟨code, rfl⟩ := hclosed
        rfl
      · rw [ugo_endClose_eq fun code heq => hclosed ⟨code, heq⟩, Option.isSome_map]
        exact hq
  | join =>
      have hex : s.exited = true := by simpa [UPc.Blocked] using h
      exact hgo (Option.isSome_ite.mpr hex)
  | destroyed => exact absurd trivial h
  | _ => exact hgo rfl

/-! ## The locks -/

/-- A thread that holds a lock of the circular buffer is not blocked in it. -/
theorem PPc.Blocked.free {s : Shared α} {p : PPc α} (h : p.Blocked s) :
    p.holdsW = false ∧ p.holdsR = false := by
  cases p <;> first | exact ⟨rfl, rfl⟩ | cases h

theorem CPc.Blocked.free {s : Shared α} {q : CPc α} (h : q.Blocked s) :
    q.holdsW = false ∧ q.holdsR = false := by
  cases q <;> first | exact ⟨rfl, rfl⟩ | cases h

theorem FPc.Blocked.circ {s : SlBuffer α} {f : FPc α} (h : f.Blocked s) :
    f.circ.Blocked s.cbuf := by
  cases f <;> first | exact h | trivial

theorem UPc.Blocked.circ {s : SlBuffer α} {u : UPc α} (h : u.Blocked s) :
    u.circ.Blocked s.cbuf := by
  cases u <;> first | exact h | trivial

theorem lock_free {l : Option Tid} (hp : l ≠ some .producer) (hc : l ≠ some .consumer) :
    l = none := by
  cases l with
  | none => rfl
  | some t => cases t <;> contradiction

/-- Parked or gone, and nobody has signalled. -/
def FPc.Asleep (s : SlBuffer α) : FPc α → Prop
  | .write (.parked _) => s.cbuf.rcond = .parked
  | .parked => s.fillerCond = .parked
  | .exited => True
  | _ => False

def UPc.Asleep (s : SlBuffer α) : UPc α → Prop
  | .read _ (.parked _) => s.cbuf.wcond = .parked
  | .parked .. => s.userCond = .parked
  | .join => s.exited = false
  | .destroyed => True
  | _ => False

/-- When both threads are blocked no lock is taken, so both are asleep. -/
theorem asleep_of_blocked {s : SlBuffer α} {f : FPc α} {u : UPc α} (hx : SeekInv s f u)
    (hc : CircInv c s f u) (hf : f.Blocked s) (hu : u.Blocked s) :
    f.Asleep s ∧ u.Asleep s := by
  have hw : s.cbuf.wlock = none := lock_free
    (fun h => by have := hc.prod.wlock.mp h; rw [hf.circ.free.1] at this; cases this)
    (fun h => by have := hc.cons.wlock.mp h; rw [hu.circ.free.1] at this; cases this)
  have hr : s.cbuf.rlock = none := lock_free
    (fun h => by have := hc.prod.rlock.mp h; rw [hf.circ.free.2] at this; cases this)
    (fun h => by have := hc.cons.rlock.mp h; rw [hu.circ.free.2] at this; cases this)
  have hs : s.seekLock = none := by
    refine lock_free (fun h => ?_) fun h => ?_
    · have hl := hx.lockF.mp h
      cases f with
      | closeWrite p =>
          have hcall := hc.fcall
          cases p with
          | closeLock => exact hf hw
          | idle | lockR k | parked k | lockW k woff n got => cases hcall
          | _ => cases hf
      | startLock | seekLock | endLock | write p | parked | exited => cases hl
      | _ => cases hf
    · have hl := hx.lockU.mp h
      cases u with
      | closeRead off whence q | endClose q =>
          have hcall := hc.ucall
          cases q with
          | closeLock => exact hu hr
          | idle | lockR d roff | parked k | lockW k => cases hcall
          | _ => cases hu
      | seekLock off whence | endLock | read tell₀ q | parked off whence | join | destroyed =>
          cases hl
      | _ => cases hu
  refine ⟨?_, ?_⟩
  · cases f with
    | startLock | seekLock | endLock => exact absurd hs hf
    | write p =>
        obtain ⟨⟨k, hk, -⟩, -⟩ := hc.fcall
        cases p with
        | parked k =>
            have hout : s.cbuf.rcond ≠ .out := fun h => by cases hc.prod.rcond.mp h
            exact Wait.eq_parked hout (hf.resolve_right (not_not.mpr hr))
        | lockR k => exact absurd hr hf
        | lockW k woff n got => exact absurd hw hf
        | idle | closeLock => cases hk
        | _ => cases hf
    | closeWrite p =>
        have hl := hx.lockF.mpr rfl
        rw [hs] at hl
        cases hl
    | parked =>
        have hout : s.fillerCond ≠ .out := fun h => by cases hx.condF.mp h
        exact Wait.eq_parked hout (hf.resolve_right (not_not.mpr hs))
    | exited => trivial
    | _ => cases hf
  · cases u with
    | seekLock off whence | endLock => exact absurd hs hu
    | read tell₀ q =>
        obtain ⟨len, pre, k, hk, -⟩ := hc.ucall
        cases q with
        | parked k =>
            have hout : s.cbuf.wcond ≠ .out := fun h => by cases hc.cons.wcond.mp h
            exact Wait.eq_parked hout (hu.resolve_right (not_not.mpr hw))
        | lockR d roff => exact absurd hr hu
        | lockW k => exact absurd hw hu
        | idle | closeLock => cases hk
        | _ => cases hu
    | closeRead off whence q | endClose q =>
        have hl := hx.lockU.mpr rfl
        rw [hs] at hl
        cases hl
    | parked off whence =>
        have hout : s.userCond ≠ .out := fun h => by cases hx.condU.mp h
        exact Wait.eq_parked hout (hu.resolve_right (not_not.mpr hs))
    | join => exact hu
    | destroyed => trivial
    | _ => cases hu

/-! ## The two waits contradict each other -/

theorem bufferCapacity_pos {ok : Stream α → BAct α → Prop} {x : Stream α}
    (h : (buffered α c step).Reach ok x) : 0 < c := by
  refine h.invariant (I := fun _ => 0 < c) ?_ (fun _ _ _ _ hc _ _ => hc)
  rintro _ ⟨env, others, s, hs, -, rfl⟩
  obtain ⟨cb, hcb, -, rfl⟩ := slBufferCreate2_eq hs
  exact (circbufInit_open hcb).1

/-- The filler is asleep on a full buffer, or at the end of the data, with
reading open; or it has left. -/
theorem FPc.Asleep.why {s : SlBuffer α} {f : FPc α} {u : UPc α} (hc : CircInv c s f u)
    (hi : LiveInv s f u) (hf : f.Asleep s) (hu : u.Asleep s) :
    (s.cbuf.cb.rdone = false ∧ (s.cbuf.cb.wdone = true ∨ circbufGetLength s.cbuf.cb = c))
      ∨ f.left = true := by
  have hquiet : u.signalsF = false ∧ u.circ.signalsR = false := by
    cases u with
    | read tell₀ q => cases q <;> first | exact ⟨rfl, rfl⟩ | cases hu
    | parked off whence | join | destroyed => exact ⟨rfl, rfl⟩
    | _ => cases hu
  cases f with
  | write p =>
      cases p with
      | parked k =>
          obtain ⟨hfull, hopen⟩ := (hc.wake.rcond hf).resolve_right (by simp [hquiet.2])
          refine .inl ⟨hopen, .inr ?_⟩
          rw [hfull, hc.size, Nat.add_sub_cancel]
      | _ => cases hf
  | parked =>
      have hopen := (hi.fillerCond hf).resolve_right (by simp [hquiet.1])
      exact .inl ⟨hopen, .inl hi.flags⟩
  | exited => exact .inr rfl
  | _ => cases hf

/-- The user is asleep on an empty buffer that is open for writing, or on a
request or in the join with reading closed. -/
theorem UPc.Asleep.why {s : SlBuffer α} {f : FPc α} {u : UPc α} (hc : CircInv c s f u)
    (hi : LiveInv s f u) (hf : f.Asleep s) (hu : u.Asleep s) (hne : u ≠ .destroyed) :
    (u.closedR = false ∧ s.cbuf.cb.wdone = false ∧ circbufGetLength s.cbuf.cb = 0)
      ∨ (s.cbuf.cb.rdone = true ∧ (u.ending = false ∨ s.exited = false)) := by
  have hquiet : f.signalsU = false ∧ f.circ.signalsW = false ∧ f.opened = false := by
    cases f with
    | write p => cases p <;> first | exact ⟨rfl, rfl, rfl⟩ | cases hf
    | parked | exited => exact ⟨rfl, rfl, rfl⟩
    | _ => cases hf
  obtain ⟨hsig, hsigW, hopened⟩ := hquiet
  cases u with
  | read tell₀ q =>
      cases q with
      | parked k =>
          obtain ⟨hempty, hopen⟩ := (hc.wake.wcond hu).resolve_right (by simp [hsigW])
          exact .inl ⟨rfl, hopen, by rw [circbufGetLength_eq, hempty, ByteRing.used_self]⟩
      | _ => cases hu
  | parked off whence =>
      have hreq := (hi.userCond hu).resolve_right (by simp [hsig])
      exact .inr ⟨hi.closes rfl (.inl hreq) hopened, .inl rfl⟩
  | join => exact .inr ⟨hi.closes rfl (.inr rfl) hopened, .inr hu⟩
  | destroyed => exact absurd rfl hne
  | _ => cases hu

theorem not_both_asleep {x : Stream α} (h : (buffered α c step).Reach ServesSucceed x)
    (hne : x.u ≠ .destroyed) (hf : x.f.Asleep x.s) (hu : x.u.Asleep x.s) : False := by
  have hc := circInv_of_reach h
  have hi := liveInv_of_reach h
  have hpos := bufferCapacity_pos h
  rcases hf.why hc hi hu with ⟨hopen, hwhy⟩ | hleft
  · rcases hu.why hc hi hf hne with ⟨-, hw, hempty⟩ | ⟨hclosed, -⟩
    · rcases hwhy with hw' | hfull
      · rw [hw] at hw'; cases hw'
      · omega
    · rw [hopen] at hclosed; cases hclosed
  · obtain ⟨hcl, hend⟩ := hi.exit hleft
    have hex := hi.exited hleft
    rcases hu.why hc hi hf hne with ⟨hcl', -⟩ | ⟨-, hend' | hex'⟩
    · rw [hcl] at hcl'; cases hcl'
    · rw [hend] at hend'; cases hend'
    · rw [hex] at hex'; cases hex'

/-! ## The main result -/

/-- The user is parked on `wcond` or on `seek_cond` with no wake-up
pending, or waits for the filler to return. -/
def UPc.Stuck (s : SlBuffer α) : UPc α → Prop
  | .read _ (.parked _) => s.cbuf.wcond ≠ .woken
  | .parked .. => s.userCond ≠ .woken
  | .join => s.exited = false
  | _ => False

/-- The filler is parked on `rcond` or on `seek_cond` with no wake-up
pending. -/
def FPc.Stuck (s : SlBuffer α) : FPc α → Prop
  | .write (.parked _) => s.cbuf.rcond ≠ .woken
  | .parked => s.fillerCond ≠ .woken
  | _ => False

/-- In `sl_buffer_destroy`, reading has been closed. -/
def UPc.HasClosed (u : UPc α) : Prop := u.ending = true ∧ u.closedR = true

theorem FPc.Stuck.asleep {s : SlBuffer α} {f : FPc α} {u : UPc α} (hx : SeekInv s f u)
    (hc : CircInv c s f u) (h : f.Stuck s) : f.Asleep s := by
  cases f with
  | write p =>
      cases p with
      | parked k => exact Wait.eq_parked (fun h => by cases hc.prod.rcond.mp h) h
      | _ => cases h
  | parked => exact Wait.eq_parked (fun h => by cases hx.condF.mp h) h
  | _ => cases h

theorem UPc.Stuck.asleep {s : SlBuffer α} {f : FPc α} {u : UPc α} (hx : SeekInv s f u)
    (hc : CircInv c s f u) (h : u.Stuck s) : u.Asleep s := by
  cases u with
  | read tell₀ q =>
      cases q with
      | parked k => exact Wait.eq_parked (fun h => by cases hc.cons.wcond.mp h) h
      | _ => cases h
  | parked off whence => exact Wait.eq_parked (fun h => by cases hx.condU.mp h) h
  | join => exact h
  | _ => cases h

/-- No thread waits in vain. -/
structure Stream.Live (x : Stream α) : Prop where
  moves : x.u ≠ .destroyed → x.Moves
  stuck : ¬ (x.u.Stuck x.s ∧ x.f.Stuck x.s)
  exited : x.f = .exited → x.u.HasClosed

theorem live_of_reach {x : Stream α} (h : (buffered α c step).Reach ServesSucceed x) :
    x.Live := by
  have hx := seekInv_of_reach h
  have hc := circInv_of_reach h
  have hi := liveInv_of_reach h
  refine ⟨fun hne => ?_, fun ⟨hu, hf⟩ => ?_, fun hf => ?_⟩
  · by_cases hf : x.f.Blocked x.s
    · by_cases hu : x.u.Blocked x.s
      · obtain ⟨hfa, hua⟩ := asleep_of_blocked hx hc hf hu
        exact (not_both_asleep h hne hfa hua).elim
      · exact Stream.moves_user hu
    · exact Stream.moves_filler hc.fcall hf
  · refine not_both_asleep h ?_ (hf.asleep hx hc) (hu.asleep hx hc)
    intro hd
    rw [hd] at hu
    cases hu
  · obtain ⟨hcl, hend⟩ := hi.exit (by rw [hf]; rfl)
    exact ⟨hend, hcl⟩

/-- **The handshake never deadlocks.** While every inner seek succeeds:
until `sl_buffer_destroy` returns, one of the threads can take a step that
is not a spurious wake-up; the two are never both parked with no wake-up
pending; and the filler has left its loop only when `sl_buffer_destroy`
has closed reading, so nobody waits then for data or for a seek. -/
theorem handshake_live (c step : Nat) (x : Stream α)
    (h : (buffered α c step).Reach SeeksSucceed x) :
    (x.u ≠ .destroyed → x.Moves)
      ∧ ¬ (x.u.Stuck x.s ∧ x.f.Stuck x.s)
      ∧ (x.f = .exited → x.u.HasClosed) := by
  have hlive := live_of_reach (h.mono fun _ _ => SeeksSucceed.serves)
  exact ⟨hlive.moves, hlive.stuck, hlive.exited⟩

/-- The user is parked in its seek; the filler can serve it. -/
theorem handshake_live_run :
    ∃ x : Stream Nat, x.u = .parked 5 slSeekSet ∧ x.s.userCond = .parked ∧ x.Moves
      ∧ ¬ x.f.Stuck x.s := by
  let acts : List (BAct Nat) := List.replicate 3 (.filler .go)
    ++ .user (.call (.seek 5 slSeekSet)) :: List.replicate 14 (.user .go)
  have hrun : ∃ x, (buffered Nat 1 1).run acts
      ⟨.fresh ⟨fun _ => 0, 2, 0, 0, false, false⟩ 1, .startLock, .idle⟩ = some x
      ∧ x.u = .parked 5 slSeekSet ∧ x.s.userCond = .parked := ⟨_, rfl, rfl, rfl⟩
  obtain ⟨x, hrun, hu, hcond⟩ := hrun
  have hreach : (buffered Nat 1 1).Reach SeeksSucceed x := by
    refine .run ?_ (.init ⟨.ample 0, true, _, rfl, by decide, rfl⟩) hrun
    intro a ha s
    obtain rfl | rfl | rfl : a = .filler .go ∨ a = .user (.call (.seek 5 slSeekSet))
        ∨ a = .user .go := by
      simpa [acts] using ha
    all_goals trivial
  obtain ⟨hmoves, hstuck, -⟩ := handshake_live 1 1 x hreach
  refine ⟨x, hu, hcond, hmoves (by rw [hu]; nofun), fun hf => hstuck ⟨?_, hf⟩⟩
  rw [hu]
  exact fun hw => by rw [hcond] at hw; cases hw

end Streamlike
