import Streamlike.BufferCalls
import Streamlike.BufferCirc

/-!
# A short read of the stream means end of data

`sl_buffer_read_cb` turns a short `circbuf_read` into `eof = 1`. In runs
in which the filler does not close writing between the user's two loads
(`Stream.ClosesBetween`), that report is right, whatever the inner seeks
return: every byte that the inner stream has handed over since the last
reset has been read.

Two facts about the filler carry it. Once writing is closed it publishes
nothing: it comes to `circbuf_write2` again only after a reset, or with
reading closed, where the call returns at its entry (`EndInv`). And `eof`
stays raised only as long as nothing is fetched, or until the reset of a
successful seek whose return clears it (`EofOk`).
-/

namespace Streamlike

variable {α : Type} {c step : Nat}

/-! ## The filler once writing is closed -/

/-- Between the close of writing and the test of `rdone`, and inside the
reset. -/
def FPc.ends : FPc α → Bool
  | .endLock | .closeWrite _ | .testRead | .wait | .parked | .reset1 | .exited => true
  | _ => false

/-- Inside `circbuf_write2`: once writing is closed, at its entry or its
return. -/
def FPc.QuietAt (s : SlBuffer α) : FPc α → Prop
  | .write p => s.cbuf.cb.wdone = true → (∃ k, p = .entry k) ∨ ∃ k, p = .ret k 0
  | _ => True

structure EndInv (s : SlBuffer α) (f : FPc α) : Prop where
  step_pos : 0 < s.stepSize
  closed : f.ends = false → s.cbuf.cb.wdone = true → s.cbuf.cb.rdone = true
  quiet : f.QuietAt s

/-- The filler enters `circbuf_write2`. -/
theorem EndInv.startWrite {s s' : SlBuffer α} (hstep : 0 < s'.stepSize)
    (hclosed : s'.cbuf.cb.wdone = true → s'.cbuf.cb.rdone = true) :
    EndInv s' (FPc.startWrite s) :=
  ⟨hstep, fun _ => hclosed, fun _ => .inl ⟨_, rfl⟩⟩

/-- A step inside `circbuf_write2`. -/
theorem EndInv.write {len : Nat} {a : PAct α} {s : SlBuffer α} {p p' : PPc α} {cbuf : Shared α}
    (hr : RingOk c s.cbuf) (hp : ProdOk s.cbuf p) (hi : EndInv s (.write p)) (hw : p.Write2 len)
    (h : pstep a s.cbuf p = some (cbuf, p')) (hret : ∀ k n, p ≠ .ret k n) (n : Nat) :
    EndInv { s with cbuf, inner := n } (.write p') := by
  have hframe := (pstep_ok hr hp h).frame
  have hwdone := write2_wdone hw h
  refine ⟨hi.step_pos, fun _ hd => hframe.rdone.trans (hi.closed rfl (hwdone ▸ hd)), fun hd => ?_⟩
  have hold : s.cbuf.cb.wdone = true := hwdone ▸ hd
  rcases hi.quiet hold with ⟨k, rfl⟩ | ⟨k, rfl⟩
  · -- the call finds reading closed
    cases a with
    | go =>
        obtain ⟨-, rfl⟩ := Prod.mk.inj (Option.some.inj h)
        rw [if_pos (hi.closed rfl hold)]
        exact .inr ⟨k, rfl⟩
    | _ => cases h
  · exact absurd rfl (hret k 0)

theorem fgo_end {s s' : SlBuffer α} {f f' : FPc α} {u : UPc α} (hc : CircInv c s f u)
    (hi : EndInv s f) (h : fgo s f = some (s', f')) : EndInv s' f' := by
  have hstep := hi.step_pos
  cases f with
  | startLock | seekLock | endLock | parked =>
      obtain ⟨_, h⟩ := Option.ite_none_right_eq_some.mp h
      obtain ⟨rfl, rfl⟩ := Prod.mk.inj (Option.some.inj h)
      first
        | exact ⟨hstep, (fun _ => hi.closed rfl), trivial⟩
        | exact ⟨hstep, (fun h => by cases h), trivial⟩
  | start | startUnlock | loadOff | loadWhence off | storeResult result | clearReq | signalUser
  | endUnlock =>
      obtain ⟨rfl, rfl⟩ := Prod.mk.inj (Option.some.inj h)
      exact ⟨hstep, (fun _ => hi.closed rfl), trivial⟩
  | wait =>
      obtain ⟨rfl, rfl⟩ := Prod.mk.inj (Option.some.inj h)
      exact ⟨hstep, (fun h => by cases h), trivial⟩
  | loopR | testResult =>
      obtain ⟨rfl, rfl⟩ := Prod.mk.inj (Option.some.inj h)
      split <;> exact ⟨hstep, (fun _ => hi.closed rfl), trivial⟩
  | loopQ =>
      rcases fgo_loopQ h with ⟨-, rfl, rfl⟩ | ⟨-, rfl, rfl⟩ <;>
        exact ⟨hstep, (fun _ => hi.closed rfl), trivial⟩
  | ifReq =>
      obtain ⟨rfl, rfl⟩ := Prod.mk.inj (Option.some.inj h)
      split
      · exact ⟨hstep, (fun _ => hi.closed rfl), trivial⟩
      · exact .startWrite hstep (hi.closed rfl)
  | innerSeek off whence => cases h
  | reset0 =>
      obtain ⟨rfl, rfl⟩ := Prod.mk.inj (Option.some.inj h)
      exact ⟨hstep, (fun h => by cases h), trivial⟩
  | reset1 =>
      obtain ⟨rfl, rfl⟩ := Prod.mk.inj (Option.some.inj h)
      exact ⟨hstep, (fun _ h => by cases h), trivial⟩
  | reset2 | reset3 =>
      obtain ⟨rfl, rfl⟩ := Prod.mk.inj (Option.some.inj h)
      exact ⟨hstep, (fun _ => hi.closed rfl), trivial⟩
  | seekUnlock =>
      obtain ⟨rfl, rfl⟩ := Prod.mk.inj (Option.some.inj h)
      exact .startWrite hstep (hi.closed rfl)
  | write p =>
      rcases fgo_write h with ⟨k, written, rfl, rfl, rfl⟩ | ⟨hret, cbuf, p', hp, rfl, rfl⟩
      · split
        · exact ⟨hstep, (fun h => by cases h), trivial⟩
        · next hfull =>
          refine ⟨hstep, (fun _ hd => ?_), trivial⟩
          rcases hi.quiet hd with ⟨k', hk⟩ | ⟨k', hk⟩
          · cases hk
          · cases hk
            exact absurd hstep hfull
      · exact hi.write (a := .go) (hc.ring (fun h => by cases h)) hc.prod hc.fcall hp hret _
  | closeWrite p =>
      obtain ⟨code, rfl, rfl, rfl⟩ | ⟨-, cbuf, p', -, rfl, rfl⟩ := fgo_closeWrite h <;>
        exact ⟨hstep, (fun h => by cases h), trivial⟩
  | testRead =>
      obtain ⟨rfl, rfl⟩ := Prod.mk.inj (Option.some.inj h)
      split
      · next hr => exact ⟨hstep, (fun _ _ => hr), trivial⟩
      · exact ⟨hstep, (fun h => by cases h), trivial⟩
  | exited => cases h

theorem fstep_end {a : FAct α} {s s' : SlBuffer α} {f f' : FPc α} {u : UPc α}
    (hc : CircInv c s f u) (hi : EndInv s f) (h : fstep a s f = some (s', f')) :
    EndInv s' f' := by
  cases fstep_cases h with
  | go h => exact fgo_end hc hi h
  | store hp | readRet hp | spurious hp =>
      refine hi.write (hc.ring nofun) hc.prod hc.fcall hp ?_ _
      rintro k n rfl
      cases hp
  | seekRet off whence result dest => exact ⟨hi.step_pos, (fun _ => hi.closed rfl), trivial⟩
  | wake hparked => exact ⟨hi.step_pos, nofun, trivial⟩

theorem FPc.QuietAt.user {s s' : SlBuffer α} {f : FPc α} (h : f.QuietAt s)
    (hwdone : s'.cbuf.cb.wdone = s.cbuf.cb.wdone) : f.QuietAt s' := by
  cases f with
  | write p => exact fun hd => h (hwdone ▸ hd)
  | _ => trivial

theorem ustep_end {a : UAct α} {s s' : SlBuffer α} {f : FPc α} {u u' : UPc α}
    (hx : SeekInv s f u) (hc : CircInv c s f u) (hi : EndInv s f)
    (h : ustep a s u = some (s', u')) : EndInv s' f := by
  cases ustep_circ h with
  | circ hb hlen hu _ =>
      have hframe := (cstep_ok (hc.ring (hx.not_reset3 hu)) hc.cons hb).frame
      exact ⟨hlen ▸ hi.step_pos,
        fun hf hd => cstep_rdone hb (hi.closed hf (hframe.wdone ▸ hd)),
        hi.quiet.user hframe.wdone⟩
  | move hs hlen _ _ _ _ =>
      exact ⟨hlen ▸ hi.step_pos, by rw [hs]; exact hi.closed, hi.quiet.user (by rw [hs])⟩

theorem endInv_of_reach {ok : Stream α → BAct α → Prop} {x : Stream α}
    (h : (buffered α c step).Reach ok x) : EndInv x.s x.f := by
  refine h.invariant (I := fun x => EndInv x.s x.f) ?_ ?_
  · rintro _ ⟨env, others, s, hs, -, rfl⟩
    obtain ⟨cb, hcb, hpos, rfl⟩ := slBufferCreate2_eq hs
    obtain ⟨-, -, hw⟩ := circbufInit_open hcb
    exact ⟨hpos, fun _ hd => absurd (hw.symm.trans hd) nofun, trivial⟩
  intro x a x' hreach hi _ hstep
  have hx := seekInv_of_reach hreach
  have hc := circInv_of_reach hreach
  rcases streamStep_cases hstep with ⟨b, rfl, hb, hu⟩ | ⟨b, rfl, hb, hf⟩
  · exact fstep_end hc hi hb
  · rw [hf]; exact ustep_end hx hc hi hb

/-- Once writing is closed, nothing is in flight. -/
theorem EndInv.inflight {s : SlBuffer α} {f : FPc α} {u : UPc α} (hi : EndInv s f)
    (hc : CircInv c s f u) (hd : s.cbuf.cb.wdone = true) : f.circ.inflight = [] := by
  have hcall := hc.fcall
  cases f with
  | write p =>
      obtain ⟨k, rfl⟩ | ⟨k, rfl⟩ := hi.quiet hd <;> rfl
  | closeWrite p => cases p <;> first | rfl | cases hcall
  | _ => rfl

/-- Once writing is closed, the filler moves `woff` only in a reset. -/
theorem fstep_quiet {a : FAct α} {s s' : SlBuffer α} {f f' : FPc α} {u : UPc α}
    (hc : CircInv c s f u) (hi : EndInv s f) (h : fstep a s f = some (s', f'))
    (hf : f.resetting = false) (hd : s.cbuf.cb.wdone = true) :
    s'.cbuf.cb.woff = s.cbuf.cb.woff ∧ s'.cbuf.cb.wdone = true := by
  cases fstep_circ h with
  | circ hb _ _ _ =>
      cases pstep_publishes hb with
      | none hwoff hwdone _ => exact ⟨hwoff, hwdone.trans hd⟩
      | woff hp _ _ =>
          have hcall := hc.fcall
          cases f with
          | write p =>
              obtain rfl := hp
              obtain ⟨k, hk⟩ | ⟨k, hk⟩ := hi.quiet hd <;> cases hk
          | closeWrite p =>
              obtain rfl := hp
              cases hcall
          | _ => cases hp
      | wdone _ _ hwoff hwdone => exact ⟨hwoff, hwdone⟩
  | move hs _ _ _ _ _ => rw [hs]; exact ⟨rfl, hd⟩
  | reset _ hr => rw [hf] at hr; cases hr

/-! ## The two loads of the user -/

/-- The filler closes writing between the user's load of `woff`, which
found the buffer empty, and its load of `wdone`, with bytes published
since. -/
def Stream.ClosesBetween (x : Stream α) (a : BAct α) : Prop :=
  a = .filler .go ∧ x.f = .closeWrite .closeStore
    ∧ (∃ tell₀ k, x.u = .read tell₀ (.loopD k)) ∧ circbufGetLength x.s.cbuf.cb ≠ 0

theorem ShortOk.begins {s : Shared α} {q : CPc α} (h : q.begins = true) : ShortOk s q := by
  cases q <;> trivial

/-- The step that closes writing. -/
theorem fstep_closes {a : FAct α} {s s' : SlBuffer α} {f f' : FPc α} {u : UPc α}
    (hc : CircInv c s f u) (h : fstep a s f = some (s', f')) (hp : f.circ = .closeStore) :
    a = .go ∧ f = .closeWrite .closeStore
      ∧ circbufGetLength s'.cbuf.cb = circbufGetLength s.cbuf.cb := by
  have hcall := hc.fcall
  cases f with
  | write p =>
      obtain rfl := hp
      obtain ⟨⟨k, hk, -⟩, -⟩ := hcall
      cases hk
  | closeWrite p =>
      obtain rfl := hp
      cases a with
      | go =>
          obtain ⟨rfl, rfl⟩ := Prod.mk.inj (Option.some.inj h)
          exact ⟨rfl, rfl, rfl⟩
      | _ => cases h
  | _ => cases hp

theorem fstep_short {x : Stream α} {a : FAct α} {s : SlBuffer α} {f : FPc α}
    (hx : SeekInv x.s x.f x.u) (hc : CircInv c x.s x.f x.u) (hi : EndInv x.s x.f)
    (hs : ShortOk x.s.cbuf x.u.circ) (hrace : ¬ x.ClosesBetween (.filler a))
    (h : fstep a x.s x.f = some (s, f)) : ShortOk s.cbuf x.u.circ := by
  cases fstep_circ h with
  | circ hb hf _ _ =>
      have hring := hc.ring (by intro hr; rw [hr] at hf; cases hf)
      refine hs.pstep hring hc.prod (fstep_quiet hc hi h hf) ?_ hb
      intro k hk hd hopen
      cases pstep_publishes hb with
      | none _ hwdone _ => rw [hwdone, hopen] at hd; cases hd
      | woff _ _ hwdone => rw [hwdone, hopen] at hd; cases hd
      | wdone hp _ _ _ =>
          obtain ⟨rfl, hpc, hlen⟩ := fstep_closes hc h hp
          by_contra hne
          refine hrace ⟨rfl, hpc, ?_, hlen ▸ hne⟩
          have hcall := hc.ucall
          cases hu : x.u with
          | read tell₀ q =>
              rw [hu] at hk
              obtain rfl := hk
              exact ⟨tell₀, k, rfl⟩
          | closeRead off whence q | endClose q =>
              rw [hu] at hk hcall
              obtain rfl := hk
              cases hcall
          | _ => rw [hu] at hk; cases hk
  | move hcb _ _ _ _ _ => rw [hcb]; exact hs
  | reset _ hr =>
      have hboth : x.f.answering = true ∧ x.f.holdsS = true := by
        cases hpc : x.f with
        | reset0 | reset1 | reset2 | reset3 => exact ⟨rfl, rfl⟩
        | _ => rw [hpc] at hr; cases hr
      obtain ⟨off, whence, hu⟩ := hx.parked hboth.1 hboth.2
      rw [hu]
      trivial

theorem ustep_short {a : UAct α} {s s' : SlBuffer α} {f : FPc α} {u u' : UPc α}
    (hc : CircInv c s f u) (hs : ShortOk s.cbuf u.circ) (h : ustep a s u = some (s', u')) :
    ShortOk s'.cbuf u'.circ := by
  cases ustep_circ h with
  | circ hb _ _ _ => exact hs.cstep hc.cons hb
  | move _ _ _ hbegins _ _ => exact .begins hbegins

theorem shortOk_of_reach {x : Stream α}
    (h : (buffered α c step).Reach (fun x a => ¬ x.ClosesBetween a) x) :
    ShortOk x.s.cbuf x.u.circ := by
  refine h.invariant (I := fun x => ShortOk x.s.cbuf x.u.circ) ?_ ?_
  · rintro _ ⟨env, others, s, -, -, rfl⟩
    trivial
  intro x a x' hreach hs hrace hstep
  have hx := seekInv_of_reach hreach
  have hc := circInv_of_reach hreach
  rcases streamStep_cases hstep with ⟨b, rfl, hb, hu⟩ | ⟨b, rfl, hb, hf⟩
  · rw [hu]; exact fstep_short hx hc (endInv_of_reach hreach) hs hrace hb
  · exact ustep_short hc hs hb

/-! ## The flag `eof` -/

/-- What `eof` says: the end of data; or a seek has reset the buffer, and
its return will clear the flag. -/
def EofOk (s : SlBuffer α) (f : FPc α) (u : UPc α) : Prop :=
  s.eof = true →
    (s.cbuf.cb.wdone = true ∧ circbufGetLength s.cbuf.cb = 0)
      ∨ (u.request.isSome = true ∧ s.seekResult = 0
        ∧ (f.opened = true ∨ s.seekRequested = false))

theorem fstep_eof {a : FAct α} {s s' : SlBuffer α} {f f' : FPc α} {u : UPc α}
    (hx : SeekInv s f u) (hc : CircInv c s f u) (hi : EndInv s f) (he : EofOk s f u)
    (h : fstep a s f = some (s', f')) : EofOk s' f' u := by
  have hfields := fstep_frame h
  intro hraised
  cases hf : f.resetting with
  | true =>
      -- the user is in its wait and the result is 0
      have hpoint : f.answering = true ∧ f.holdsS = true ∧ s.seekResult = 0 ∧ f'.opened = true
          ∧ ∀ result, f ≠ .storeResult result := by
        have hat := hx.fat
        cases f with
        | reset0 | reset1 | reset2 | reset3 =>
            refine ⟨rfl, rfl, hat, ?_, nofun⟩
            cases a with
            | go =>
                obtain ⟨rfl, rfl⟩ := Prod.mk.inj (Option.some.inj h)
                rfl
            | _ => cases h
        | _ => cases hf
      obtain ⟨ha, hl, hzero, hopened, hne⟩ := hpoint
      obtain ⟨off, whence, rfl⟩ := hx.parked ha hl
      exact .inr ⟨rfl, (hfields.result hne).trans hzero, .inl hopened⟩
  | false =>
      rcases he (hfields.eof ▸ hraised) with ⟨hd, hempty⟩ | ⟨hsome, hzero, hcleared⟩
      · left
        obtain ⟨hwoff, hd'⟩ := fstep_quiet hc hi h hf hd
        have hroff : s'.cbuf.cb.roff = s.cbuf.cb.roff ∧ s'.cbuf.cb.size = s.cbuf.cb.size := by
          cases fstep_circ h with
          | circ hb _ _ _ =>
              have hframe := (pstep_ok (hc.ring (by rintro rfl; cases hf)) hc.prod hb).frame
              exact ⟨hframe.roff, hframe.size⟩
          | move hs _ _ _ _ _ => rw [hs]; exact ⟨rfl, rfl⟩
          | reset _ hr => rw [hf] at hr; cases hr
        refine ⟨hd', ?_⟩
        rw [circbufGetLength_eq, hwoff, hroff.1, hroff.2, ← circbufGetLength_eq, hempty]
      · right
        have hne : ∀ result, f ≠ .storeResult result := by
          rintro result rfl
          have hbusy := hx.busy (.inr rfl)
          rcases hcleared with hop | hno
          · cases hop
          · rw [hbusy] at hno; cases hno
        refine ⟨hsome, (hfields.result hne).trans hzero, .inr ?_⟩
        by_cases hpc : f = .clearReq
        · exact hfields.cleared hpc
        · refine (hfields.req hpc).trans (hcleared.resolve_left fun hop => ?_)
          cases f with
          | clearReq => exact hpc rfl
          | reset1 | reset2 | reset3 => cases hf
          | _ => cases hop

/-- The end of data survives a step of the user. -/
theorem ustep_drained {a : UAct α} {s s' : SlBuffer α} {f : FPc α} {u u' : UPc α}
    (hx : SeekInv s f u) (hc : CircInv c s f u) (h : ustep a s u = some (s', u'))
    (hend : s.cbuf.cb.wdone = true ∧ circbufGetLength s.cbuf.cb = 0) :
    s'.cbuf.cb.wdone = true ∧ circbufGetLength s'.cbuf.cb = 0 := by
  cases ustep_circ h with
  | circ hb _ hu _ =>
      have hframe := (cstep_ok (hc.ring (hx.not_reset3 hu)) hc.cons hb).frame
      exact ⟨hframe.wdone.trans hend.1, Nat.le_zero.mp (hend.2 ▸ hframe.length_le)⟩
  | move hs _ _ _ _ _ => rw [hs]; exact hend

/-- A step of the user inside a seek that the filler has answered. -/
theorem ustep_answered {a : UAct α} {s s' : SlBuffer α} {f : FPc α} {u u' : UPc α}
    (hx : SeekInv s f u) (h : ustep a s u = some (s', u')) (hsome : u.request.isSome = true)
    (hzero : s.seekResult = 0) :
    s'.eof = false
      ∨ (u'.request.isSome = true ∧ s'.seekResult = 0 ∧ s'.seekRequested = s.seekRequested) := by
  have hat := hx.uat
  cases ustep_cases h with
  | go h =>
      cases u with
      | closeRead off whence q =>
          rcases ugo_closeRead h with ⟨code, -, rfl, rfl⟩ | ⟨-, cbuf, q', -, rfl, rfl⟩ <;>
            exact .inr ⟨rfl, hzero, rfl⟩
      | parked off whence =>
          obtain ⟨_, h⟩ := Option.ite_none_right_eq_some.mp h
          obtain ⟨rfl, rfl⟩ := Prod.mk.inj (Option.some.inj h)
          exact .inr ⟨rfl, hzero, rfl⟩
      | testReq off whence =>
          obtain ⟨rfl, rfl⟩ := Prod.mk.inj (Option.some.inj h)
          split <;> exact .inr ⟨rfl, hzero, rfl⟩
      | testResult off whence found =>
          obtain ⟨rfl, rfl⟩ := Prod.mk.inj (Option.some.inj h)
          rw [if_pos hzero]
          exact .inr ⟨hsome, hzero, rfl⟩
      | signalFiller off whence | wait off whence | seekUnlock off whence found
      | storePos off whence found =>
          obtain ⟨rfl, rfl⟩ := Prod.mk.inj (Option.some.inj h)
          exact .inr ⟨hsome, hzero, rfl⟩
      | storeEof off whence found =>
          obtain ⟨rfl, rfl⟩ := Prod.mk.inj (Option.some.inj h)
          exact .inl rfl
      | retResult off whence found => exact absurd hzero hat
      | _ => cases hsome
  | call r | seekRet off whence result dest | spurious hq => cases hsome
  | wake hparked => exact .inr ⟨rfl, hzero, rfl⟩

/-- A step of the user raises `eof` at the return of a short read only. -/
theorem ustep_raises {a : UAct α} {s s' : SlBuffer α} {u u' : UPc α}
    (h : ustep a s u = some (s', u')) (hraised : s'.eof = true) :
    s.eof = true ∨ ∃ tell₀ k, u = .read tell₀ (.ret k) ∧ k.read < k.len := by
  cases ustep_cases h with
  | go h =>
      cases u with
      | read tell₀ q =>
          rcases ugo_read h with ⟨k, rfl, rfl, rfl⟩ | ⟨-, cbuf, q', -, rfl, rfl⟩
          · split at hraised
            · next hlt => exact .inr ⟨tell₀, k, rfl, hlt⟩
            · exact .inl hraised
          · exact .inl hraised
      | closeRead off whence q =>
          rcases ugo_closeRead h with ⟨code, -, rfl, rfl⟩ | ⟨-, cbuf, q', -, rfl, rfl⟩ <;>
            exact .inl hraised
      | endClose q =>
          rcases ugo_endClose h with ⟨code, -, rfl, rfl⟩ | ⟨-, cbuf, q', -, rfl, rfl⟩ <;>
            exact .inl hraised
      | seekLock off whence | parked off whence | endLock | join =>
          obtain ⟨_, h⟩ := Option.ite_none_right_eq_some.mp h
          obtain ⟨rfl, rfl⟩ := Prod.mk.inj (Option.some.inj h)
          exact .inl hraised
      | idle | innerSeek off whence | destroyed => cases h
      | storeEof off whence found =>
          obtain ⟨rfl, rfl⟩ := Prod.mk.inj (Option.some.inj h)
          cases hraised
      | _ =>
          obtain ⟨rfl, rfl⟩ := Prod.mk.inj (Option.some.inj h)
          exact .inl hraised
  | call r => exact .inl hraised
  | seekRet off whence result dest => exact .inl hraised
  | spurious hq => exact .inl hraised
  | wake hparked => exact .inl hraised

/-- A short read is about to return at the end of data only. -/
theorem ShortOk.drained {s : SlBuffer α} {f : FPc α} {tell₀ : Int} {k : RCall α}
    (hc : CircInv c s f (.read tell₀ (.ret k))) (hs : ShortOk s.cbuf (.ret k))
    (hlt : k.read < k.len) : s.cbuf.cb.wdone = true ∧ circbufGetLength s.cbuf.cb = 0 := by
  obtain ⟨len, pre, k', hk, hblock, -⟩ := hc.ucall
  obtain rfl := Option.some.inj hk
  exact hs hblock hlt

theorem ustep_eof {a : UAct α} {s s' : SlBuffer α} {f : FPc α} {u u' : UPc α}
    (hx : SeekInv s f u) (hc : CircInv c s f u) (hs : ShortOk s.cbuf u.circ) (he : EofOk s f u)
    (h : ustep a s u = some (s', u')) : EofOk s' f u' := by
  intro hraised
  rcases ustep_raises h hraised with hold | ⟨tell₀, k, rfl, hlt⟩
  · rcases he hold with hend | ⟨hsome, hzero, hcleared⟩
    · exact .inl (ustep_drained hx hc h hend)
    · rcases ustep_answered hx h hsome hzero with hdown | ⟨hsome', hzero', hsame⟩
      · rw [hdown] at hraised; cases hraised
      · exact .inr ⟨hsome', hzero', hcleared.imp_right hsame.trans⟩
  · exact .inl (ustep_drained hx hc h (hs.drained hc hlt))

theorem eofOk_of_reach {x : Stream α}
    (h : (buffered α c step).Reach (fun x a => ¬ x.ClosesBetween a) x) : EofOk x.s x.f x.u := by
  refine h.invariant (I := fun x => EofOk x.s x.f x.u) ?_ ?_
  · rintro _ ⟨env, others, s, hs, -, rfl⟩
    obtain ⟨cb, -, -, rfl⟩ := slBufferCreate2_eq hs
    exact nofun
  intro x a x' hreach he _ hstep
  have hx := seekInv_of_reach hreach
  have hc := circInv_of_reach hreach
  rcases streamStep_cases hstep with ⟨b, rfl, hb, hu⟩ | ⟨b, rfl, hb, hf⟩
  · rw [hu]; exact fstep_eof hx hc (endInv_of_reach hreach) he hb
  · rw [hf]; exact ustep_eof hx hc (shortOk_of_reach hreach) he hb

/-! ## The main result -/

/-- Writing is closed, and every byte that the inner stream has handed over
since the last reset has been read. -/
def Stream.AllRead (x : Stream α) : Prop :=
  x.s.cbuf.cb.wdone = true ∧ x.s.cbuf.released = x.s.cbuf.produced ∧ x.f.circ.inflight = []

/-- The end of file is reported rightly, when `sl_buffer_read_cb(buf, len)`
raises the flag and as long as it is raised between calls. -/
def Stream.EofAtEnd (x : Stream α) (calls : List (UCall α)) : Prop :=
  (∀ buf len tell₀ k, calls.getLast? = some (.read buf len) → x.u = .read tell₀ (.ret k) →
      k.read < len → x.AllRead)
    ∧ (x.u = .idle → x.s.eof = true → x.AllRead)

theorem eofAtEnd_of_reach {x : Stream α} {calls : List (UCall α)}
    (h : (bufferedCalls α c step).Reach (fun y a => ¬ y.1.ClosesBetween a) (x, calls)) :
    x.EofAtEnd calls := by
  have hplain : (buffered α c step).Reach (fun x a => ¬ x.ClosesBetween a) x :=
    Lts.Reach.forget (C := fun (x : Stream α) a => ¬ x.ClosesBetween a) (x := (x, calls)) h
  have hx := seekInv_of_reach hplain
  have hc := circInv_of_reach hplain
  have hall : x.f ≠ .reset3 → x.s.cbuf.cb.wdone = true ∧ circbufGetLength x.s.cbuf.cb = 0 →
      x.AllRead := by
    rintro hr ⟨hd, hempty⟩
    refine ⟨hd, ?_, (endInv_of_reach hplain).inflight hc hd⟩
    have hnil : x.s.cbuf.cb.unread = [] :=
      List.eq_nil_of_length_eq_zero (by rw [length_unread, hempty])
    rw [(hc.ring hr).history, hnil, List.append_nil]
  refine ⟨fun buf len tell₀ k hlast hu hlt => ?_, fun hu heof => ?_⟩
  · have hs := shortOk_of_reach hplain
    obtain rfl : k.len = len :=
      read_of_calls (C := fun (x : Stream α) a => ¬ x.ClosesBetween a) h hlast (by rw [hu]; rfl)
    rw [hu] at hc hs
    exact hall (hx.not_reset3 (by rw [hu]; nofun)) (hs.drained hc hlt)
  · rcases eofOk_of_reach hplain heof with hend | ⟨hsome, -⟩
    · exact hall (hx.not_reset3 (by rw [hu]; nofun)) hend
    · rw [hu] at hsome; cases hsome

/-- **A short read means end of data**, in the runs in which writing is not
closed between the consumer's loads of `woff` and `wdone` with bytes
published since: for `circbuf_read` against a producer that writes and then
closes, and for the end of file that `sl_buffer_read_cb` reports. Every
run has the list of its calls. -/
theorem short_read_at_end (c step : Nat) :
    (∀ (x : Sys α) (calls : List (CCall α)),
        (spscCalls α c).Reach (fun y a => Disciplined y.1 a ∧ ¬ ClosesBetween y.1 a) (x, calls) →
          x.ShortAtEnd calls)
      ∧ (∀ x : Sys α, (spsc α c).Reach (fun x a => Disciplined x a ∧ ¬ ClosesBetween x a) x →
        ∃ calls, (spscCalls α c).Reach
          (fun y a => Disciplined y.1 a ∧ ¬ ClosesBetween y.1 a) (x, calls))
      ∧ (∀ (x : Stream α) (calls : List (UCall α)),
        (bufferedCalls α c step).Reach (fun y a => ¬ y.1.ClosesBetween a) (x, calls) →
          x.EofAtEnd calls)
      ∧ ∀ x : Stream α, (buffered α c step).Reach (fun x a => ¬ x.ClosesBetween a) x →
        ∃ calls, (bufferedCalls α c step).Reach (fun y a => ¬ y.1.ClosesBetween a) (x, calls) :=
  ⟨fun _ _ h => shortAtEnd_of_reach h,
    fun _ h => h.watched (C := fun x a => Disciplined x a ∧ ¬ ClosesBetween x a),
    fun _ _ h => eofAtEnd_of_reach h,
    fun _ h => h.watched (C := fun (x : Stream α) a => ¬ x.ClosesBetween a)⟩

/-- Writing is closed on an empty buffer, then one byte is asked for. -/
theorem short_read_at_end_run :
    (∃ (x : Sys Nat) (calls : List (CCall Nat)) (k : RCall Nat),
        calls = [.read (fun _ => 0) 1] ∧ x.c = .ret k ∧ k.read < 1 ∧ x.sh.cb.wdone = true
        ∧ x.sh.released = x.sh.produced)
      ∧ ∃ x : Stream Nat, x.s.trace = [.read 0 1 [] 0 0 true] ∧ x.AllRead := by
  let M := spscCalls Nat 1
  let N := bufferedCalls Nat 1 1
  let closes : List (Act Nat) := .prod (.call .closeWrite) :: List.replicate 6 (.prod .go)
  let asks : List (Act Nat) := .cons (.call (.read (fun _ => 0) 1)) :: List.replicate 3 (.cons .go)
  have hsys : ∃ x y k, M.run closes
        (⟨.fresh ⟨fun _ => 0, 2, 0, 0, false, false⟩, .idle, .idle⟩, []) = some x
      ∧ M.run asks x = some y
      ∧ y.2 = [.read (fun _ => 0) 1] ∧ y.1.c = .ret k ∧ k.read < 1 :=
    ⟨_, _, _, rfl, rfl, rfl, rfl, Nat.zero_lt_one⟩
  let fills : List (BAct Nat) := List.replicate 15 (.filler .go)
    ++ .filler (.readRet 0) :: List.replicate 15 (.filler .go)
  let reads : List (BAct Nat) := .user (.call (.read (fun _ => 0) 1))
    :: List.replicate 5 (.user .go)
  have hstream : ∃ x y, N.run fills
        (⟨.fresh ⟨fun _ => 0, 2, 0, 0, false, false⟩ 1, .startLock, .idle⟩, []) = some x
      ∧ N.run reads x = some y
      ∧ y.1.s.trace = [.read 0 1 [] 0 0 true] ∧ y.1.u = .idle ∧ y.1.s.eof = true :=
    ⟨_, _, rfl, rfl, rfl, rfl, rfl⟩
  obtain ⟨x, y, k, hcloses, hasks, hcalls, hret, hlt⟩ := hsys
  obtain ⟨x', y', hfills, hreads, htrace, hidle, heof⟩ := hstream
  obtain ⟨hshort, -, hread, -⟩ := short_read_at_end (α := Nat) 1 1
  refine ⟨⟨y.1, y.2, k, hcalls, hret, hlt,
    hshort y.1 y.2 ?_ _ 1 k (by rw [hcalls]; rfl) hret hlt⟩, y'.1, htrace,
    (hread y'.1 y'.2 ?_).2 hidle heof⟩
  · refine .run ?_ (.runOn (P := fun x => x.1.c = .idle) ?_ ?_
      (.init ⟨⟨.ample 0, _, rfl, by decide, rfl⟩, rfl⟩) rfl hcloses) hasks
    · intro a ha s
      obtain rfl | rfl : a = .cons (.call (.read (fun _ => 0) 1)) ∨ a = .cons .go := by
        simpa [asks] using ha
      all_goals exact ⟨nofun, fun h => by cases h.1⟩
    · intro a ha s hc
      refine ⟨?_, fun ⟨_, _, ⟨k, hk⟩, _⟩ => by rw [hc] at hk; cases hk⟩
      rintro r rfl hr
      simp [closes, hr] at ha
    · intro a ha s s' hc h
      obtain ⟨t, ht, rfl⟩ := Option.map_eq_some_iff.mp h
      rcases sysStep_cases ht with ⟨b, rfl, -, hkeep⟩ | ⟨b, rfl, -, -⟩
      · exact hkeep.trans hc
      · simp [closes] at ha
  · refine .run ?_ (.runOn (P := fun x => x.1.u = .idle) ?_ ?_
      (.init ⟨⟨.ample 0, true, _, rfl, by decide, rfl⟩, rfl⟩) rfl hfills) hreads
    · intro a ha s
      obtain rfl | rfl : a = .user (.call (.read (fun _ => 0) 1)) ∨ a = .user .go := by
        simpa [reads] using ha
      all_goals exact fun h => by cases h.1
    · exact fun a _ s hu ⟨_, _, ⟨tell₀, k, hk⟩, _⟩ => by rw [hu] at hk; cases hk
    · intro a ha s s' hu h
      obtain ⟨t, ht, rfl⟩ := Option.map_eq_some_iff.mp h
      rcases streamStep_cases ht with ⟨b, rfl, -, hkeep⟩ | ⟨b, rfl, -, -⟩
      · exact hkeep.trans hu
      · simp [fills] at ha

end Streamlike
