import Streamlike.BufferExact

/-!
# The buffered stream over an inner stream

`buffered` leaves the inner stream to the action and `InnerOk` says what it
may answer. Here the inner stream is a program as well: the filler's inner
read is a call of its read callback, whose bytes then go into the region
one by one, and an inner seek is a call of its seek callback.

An inner stream that gives a content (`InnerStream.Gives`) answers as
`InnerOk` asks (`over_reach`), so all that is proved of the buffered stream
holds over it; and where the user seeks only to offsets that the inner
stream accepts, every inner seek succeeds (`over_exact`).
-/

namespace Streamlike

variable {α β : Type} {c step : Nat}

/-! ## The inner stream -/

/-- The callbacks of an inner stream. What they do besides is in the
choice, and is required to be as `readOk` and `seekOk` say. -/
structure InnerStream (β : Type) where
  State : Type
  Choice : Type
  init : State → Prop
  read : State → Choice → Nat → Option (List β × State)
  seek : State → Choice → Int → Int → Option (Int × State)
  tell : State → Int
  readOk : State → Choice → Nat → Prop
  seekOk : State → Choice → Int → Prop

/-- The inner stream gives the content `D`, sought to offsets in `P`: at a
position, a read gives all that it is asked for or all that remains, and a
seek to an offset in `Q` succeeds. -/
structure InnerStream.Gives (I : InnerStream β) (D : List β) (P Q : Int → Prop)
    (At : I.State → Nat → Prop) : Prop where
  init : ∀ st, I.init st → At st 0
  tell : ∀ st pos, At st pos → I.tell st = pos
  read : ∀ st pos e len bytes st', At st pos → I.readOk st e len →
    I.read st e len = some (bytes, st') →
      bytes = (D.drop pos).take len ∧ At st' (pos + bytes.length)
  seek : ∀ st pos e off code st', At st pos → P off → I.seekOk st e off →
    I.seek st e off slSeekSet = some (code, st') →
      code = 0 ∧ 0 ≤ off ∧ At st' off.toNat ∨ code ≠ 0 ∧ ¬ Q off ∧ At st' pos

theorem InnerStream.Gives.mono {I : InnerStream β} {D : List β} {P P' Q : Int → Prop}
    {At : I.State → Nat → Prop} (h : I.Gives D P Q At) (hP : ∀ off, P' off → P off) :
    I.Gives D P' Q At :=
  { h with
    seek := fun st pos e off code st' hat hoff => h.seek st pos e off code st' hat (hP off hoff) }

/-! ## The two streams together -/

/-- The buffered stream, its inner stream, and the inner read in progress:
the bytes stored and the bytes to store. -/
structure Over (I : InnerStream β) where
  x : Stream (β × Nat)
  inner : I.State
  reading : Option (List β × List β)

/-- What an inner stream does in `buffered`. -/
def BAct.inner : BAct α → Bool
  | .filler (.store _ _) | .filler (.readRet _) | .filler (.seekRet _ _)
  | .user (.seekRet _ _) => true
  | _ => false

/-- Actions: a step of either thread in `buffer.c`; a call of the inner
read, the store of a byte, the return; an inner seek of either thread. -/
inductive OAct (I : InnerStream β) where
  | base (a : BAct (β × Nat))
  | readCall (e : I.Choice)
  | readStore
  | readRet
  | fillerSeek (e : I.Choice)
  | userSeek (e : I.Choice)

def overStep (I : InnerStream β) (a : OAct I) (y : Over I) : Option (Over I) :=
  match a with
  | .base a => if a.inner then none else (streamStep a y.x).map fun x => { y with x }
  | .readCall e =>
      match y.x.f, y.reading with
      | .write (.writer _ _ _ _ (r :: _)), none =>
          (I.read y.inner e r.length).map fun (bytes, inner) =>
            { y with inner, reading := some ([], bytes) }
      | _, _ => none
  | .readStore =>
      match y.reading with
      | some (stored, b :: rest) =>
          (streamStep (.filler (.store stored.length (b, y.x.s.epoch))) y.x).map fun x =>
            { y with x, reading := some (stored ++ [b], rest) }
      | _ => none
  | .readRet =>
      match y.reading with
      | some (stored, []) =>
          (streamStep (.filler (.readRet stored.length)) y.x).map fun x =>
            { y with x, reading := none }
      | _ => none
  | .fillerSeek e =>
      match y.x.f with
      | .innerSeek off whence =>
          (I.seek y.inner e off whence).bind fun (code, inner) =>
            (streamStep (.filler (.seekRet code (I.tell inner).toNat)) y.x).map fun x =>
              { y with x, inner }
      | _ => none
  | .userSeek e =>
      match y.x.u with
      | .innerSeek off whence =>
          (I.seek y.inner e off whence).bind fun (code, inner) =>
            (streamStep (.user (.seekRet code (I.tell inner).toNat)) y.x).map fun x =>
              { y with x, inner }
      | _ => none

def bufferedOver (I : InnerStream β) (c step : Nat) : Lts (Over I) (OAct I) where
  init y := (buffered (β × Nat) c step).init y.x ∧ I.init y.inner ∧ y.reading = none
  step := overStep I

/-- The user seeks with `SL_SEEK_SET`, to offsets in `P`, and what is
required of the choices holds of them. -/
def OverOk {I : InnerStream β} (P : Int → Prop) (y : Over I) : OAct I → Prop
  | .base (.user (.call (.seek off whence))) => whence = slSeekSet ∧ P off
  | .readCall e => ∀ k woff total got r todo,
      y.x.f = .write (.writer k woff total got (r :: todo)) → I.readOk y.inner e r.length
  | .fillerSeek e => ∀ off whence, y.x.f = .innerSeek off whence → I.seekOk y.inner e off
  | .userSeek e => ∀ off whence, y.x.u = .innerSeek off whence → I.seekOk y.inner e off
  | _ => True

theorem overStep_base {I : InnerStream β} {b : BAct (β × Nat)} {y y' : Over I}
    (h : overStep I (.base b) y = some y') :
    b.inner = false ∧ ∃ x, streamStep b y.x = some x ∧ y' = { y with x } := by
  obtain ⟨hinner, h⟩ := Option.ite_none_left_eq_some.mp h
  obtain ⟨x, hx, rfl⟩ := Option.map_eq_some_iff.mp h
  exact ⟨Bool.eq_false_iff.mpr hinner, x, hx, rfl⟩

/-! ## The arguments of a seek -/

/-- The arguments of the seek call in progress, until the inner seek has
been made. -/
def UPc.args : UPc α → Option (Int × Int)
  | .storeOff off whence | .storeWhence off whence | .seekLock off whence
  | .testStarted off whence | .setReq off whence | .closeRead off whence _
  | .signalFiller off whence | .testReq off whence | .wait off whence | .parked off whence
  | .innerSeek off whence => some (off, whence)
  | _ => none

theorem UPc.args_awaits {u : UPc α} (h : u.awaits = true) : u.args = u.request := by
  cases u <;> first | rfl | cases h

/-- The filler seeks with the arguments of the user's call. -/
theorem SeekInv.args {s : SlBuffer α} {off whence : Int} {u : UPc α}
    (hx : SeekInv s (.innerSeek off whence) u) : u.args = some (off, whence) := by
  obtain ⟨rfl, rfl⟩ := hx.fat
  have haw := hx.req (hx.busy (.inl rfl))
  rw [UPc.args_awaits haw, hx.request haw]

theorem ugo_args {s s' : SlBuffer α} {u u' : UPc α} (h : ugo s u = some (s', u')) :
    u'.args = none ∨ u'.args = u.args := by
  cases u with
  | read tell₀ q =>
      rcases ugo_read h with ⟨k, -, -, rfl⟩ | ⟨-, cbuf, q', -, -, rfl⟩ <;> exact .inl rfl
  | closeRead off whence q =>
      rcases ugo_closeRead h with ⟨code, -, -, rfl⟩ | ⟨-, cbuf, q', -, -, rfl⟩ <;> exact .inr rfl
  | endClose q =>
      rcases ugo_endClose h with ⟨code, -, -, rfl⟩ | ⟨-, cbuf, q', -, -, rfl⟩ <;> exact .inl rfl
  | seekLock off whence | parked off whence =>
      obtain ⟨_, h⟩ := Option.ite_none_right_eq_some.mp h
      obtain ⟨rfl, rfl⟩ := Prod.mk.inj (Option.some.inj h)
      exact .inr rfl
  | endLock | join =>
      obtain ⟨_, h⟩ := Option.ite_none_right_eq_some.mp h
      obtain ⟨rfl, rfl⟩ := Prod.mk.inj (Option.some.inj h)
      exact .inl rfl
  | testStarted off whence =>
      obtain ⟨rfl, rfl⟩ := Prod.mk.inj (Option.some.inj h)
      split <;> exact .inr rfl
  | testReq off whence =>
      obtain ⟨rfl, rfl⟩ := Prod.mk.inj (Option.some.inj h)
      split
      · exact .inr rfl
      · exact .inl rfl
  | testResult off whence found =>
      obtain ⟨rfl, rfl⟩ := Prod.mk.inj (Option.some.inj h)
      split <;> exact .inl rfl
  | idle | innerSeek off whence | destroyed => cases h
  | storeOff off whence | storeWhence off whence | setReq off whence | signalFiller off whence
  | wait off whence =>
      obtain ⟨rfl, rfl⟩ := Prod.mk.inj (Option.some.inj h)
      exact .inr rfl
  | _ =>
      obtain ⟨rfl, rfl⟩ := Prod.mk.inj (Option.some.inj h)
      exact .inl rfl

theorem ustep_args {a : UAct α} {s s' : SlBuffer α} {u u' : UPc α}
    (h : ustep a s u = some (s', u')) :
    u'.args = none ∨ u'.args = u.args
      ∨ ∃ off whence, a = .call (.seek off whence) ∧ u'.args = some (off, whence) := by
  cases ustep_cases h with
  | go h => exact (ugo_args h).imp_right .inl
  | call r =>
      cases r with
      | seek off whence => exact .inr (.inr ⟨off, whence, rfl, rfl⟩)
      | _ => exact .inl rfl
  | seekRet | spurious => exact .inl rfl
  | wake => exact .inr (.inl rfl)

/-! ## What the other steps leave alone -/

theorem fstep_inner {a : FAct α} {s s' : SlBuffer α} {f f' : FPc α}
    (ha : (BAct.filler a).inner = false) (h : fstep a s f = some (s', f')) :
    s'.inner = s.inner := by
  cases fstep_cases h with
  | go h => exact fgo_inner h
  | store | readRet | seekRet => cases ha
  | spurious | wake => rfl

/-- What a step of the user leaves for an inner read in progress. -/
structure UserFrame (s s' : SlBuffer α) : Prop where
  inner : s'.inner = s.inner
  epoch : s'.epoch = s.epoch
  data : s'.cbuf.cb.data = s.cbuf.cb.data

theorem ustep_frame {a : UAct α} {s s' : SlBuffer α} {f : FPc α} {u u' : UPc α}
    (hx : SeekInv s f u) (hc : CircInv c s f u) (ha : (BAct.user a).inner = false)
    (h : ustep a s u = some (s', u')) : UserFrame s s' := by
  have hdata : s'.cbuf.cb.data = s.cbuf.cb.data := by
    cases ustep_circ h with
    | circ hb hlen hu hcall => exact (cstep_ok (hc.ring (hx.not_reset3 hu)) hc.cons hb).frame.data
    | move hs hlen ho ho' hstart hcall => rw [hs]
  cases ustep_cases h with
  | go h => exact ⟨(ugo_inner h).1, (ugo_inner h).2, hdata⟩
  | seekRet => cases ha
  | call | spurious | wake => exact ⟨rfl, rfl, hdata⟩

/-! ## The invariant -/

/-- The inner read in progress gives the bytes at the inner stream's
position, and those stored are in place. -/
def Reading (D : List β) (s : SlBuffer (β × Nat)) (f : FPc (β × Nat)) (stored rest : List β) :
    Prop :=
  ∃ k woff total got r todo, f = .write (.writer k woff total got (r :: todo))
    ∧ stored ++ rest = (D.drop s.inner).take r.length
    ∧ s.cbuf.cb.data.read r.there stored.length = stored.map fun b => (b, s.epoch)

/-- How far the inner read in progress has taken the inner stream. -/
def Over.ahead {I : InnerStream β} (y : Over I) : Nat :=
  match y.reading with
  | some (stored, rest) => (stored ++ rest).length
  | none => 0

theorem Over.ahead_none {I : InnerStream β} {y : Over I} (h : y.reading = none) : y.ahead = 0 := by
  rw [Over.ahead, h]

theorem Over.ahead_some {I : InnerStream β} {y : Over I} {stored rest : List β}
    (h : y.reading = some (stored, rest)) : y.ahead = (stored ++ rest).length := by
  rw [Over.ahead, h]

structure OverInv {I : InnerStream β} (D : List β) (P : Int → Prop)
    (At : I.State → Nat → Prop) (y : Over I) : Prop where
  args : ∀ off whence, y.x.u.args = some (off, whence) → whence = slSeekSet ∧ P off
  at_ : At y.inner (y.x.s.inner + y.ahead)
  reading : ∀ stored rest, y.reading = some (stored, rest) → Reading D y.x.s y.x.f stored rest

/-- A step of the two streams together is nothing or a step of `buffered`,
in which the inner stream does what it may. -/
def Matched {I : InnerStream β} (D : List β) (P Q : Int → Prop) (y y' : Over I) (a : OAct I) :
    Prop :=
  y'.x = y.x ∨ ∃ b, streamStep b y.x = some y'.x ∧ InnerOk D y.x b
    ∧ ((∀ off, P off → Q off) → SeeksSucceed y.x b) ∧ (b.inner = false → a = .base b)

section Steps

variable {I : InnerStream β} {D : List β} {P Q : Int → Prop} {At : I.State → Nat → Prop}
  {x' : Stream (β × Nat)} {y y' : Over I}

/-- The filler inside an inner read does nothing else. -/
theorem Reading.still {s s' : SlBuffer (β × Nat)} {f f' : FPc (β × Nat)} {stored rest : List β}
    {a : FAct (β × Nat)} (hr : Reading D s f stored rest) (ha : (BAct.filler a).inner = false)
    (h : fstep a s f = some (s', f')) : False := by
  obtain ⟨k, woff, total, got, r, todo, rfl, -⟩ := hr
  cases fstep_cases h with
  | go h => cases h
  | spurious h => cases h
  | store | readRet => cases ha

theorem Reading.user {s s' : SlBuffer (β × Nat)} {f : FPc (β × Nat)} {stored rest : List β}
    (hr : Reading D s f stored rest) (h : UserFrame s s') : Reading D s' f stored rest := by
  obtain ⟨k, woff, total, got, r, todo, hf, hbytes, hdata⟩ := hr
  refine ⟨k, woff, total, got, r, todo, hf, by rw [h.inner]; exact hbytes, ?_⟩
  rw [h.data, h.epoch]
  exact hdata

/-- A step of `buffer.c` asks nothing of the inner stream. -/
theorem base_ok {a : BAct (β × Nat)} (ha : a.inner = false) (hok : OverOk P y (.base a)) :
    InnerOk D y.x a ∧ SeeksSucceed y.x a := by
  cases a with
  | filler a =>
      cases a with
      | go | spurious => exact ⟨trivial, trivial⟩
      | store | readRet | seekRet => cases ha
  | user a =>
      cases a with
      | call r =>
          cases r with
          | seek off whence => exact ⟨hok.1, trivial⟩
          | _ => exact ⟨trivial, trivial⟩
      | seekRet => cases ha
      | _ => exact ⟨trivial, trivial⟩

theorem OverInv.base (hx : SeekInv y.x.s y.x.f y.x.u) (hc : CircInv c y.x.s y.x.f y.x.u)
    (h : OverInv D P At y) {a : BAct (β × Nat)} (ha : a.inner = false)
    (hok : OverOk P y (.base a)) (hs : streamStep a y.x = some x') :
    OverInv D P At { y with x := x' } := by
  rcases streamStep_cases hs with ⟨b, rfl, hb, hu⟩ | ⟨b, rfl, hb, hf⟩
  · have hnone : y.reading = none := by
      cases hreading : y.reading with
      | none => rfl
      | some sr => exact ((h.reading sr.1 sr.2 hreading).still ha hb).elim
    refine ⟨?_, ?_, fun stored rest heq => ?_⟩
    · rw [hu]; exact h.args
    · rw [fstep_inner ha hb]; exact h.at_
    · rw [hnone] at heq; cases heq
  · have hframe := ustep_frame hx hc ha hb
    refine ⟨?_, ?_, fun stored rest heq => ?_⟩
    · intro off whence hargs
      rcases ustep_args hb with hnone | hsame | ⟨off', whence', rfl, hcall⟩
      · rw [hnone] at hargs; cases hargs
      · exact h.args off whence (hsame ▸ hargs)
      · obtain ⟨rfl, rfl⟩ := Prod.mk.inj (Option.some.inj (hcall.symm.trans hargs))
        exact hok
    · rw [hframe.inner]; exact h.at_
    · rw [hf]; exact (h.reading stored rest heq).user hframe

theorem OverInv.readCall (hI : I.Gives D P Q At) (h : OverInv D P At y) {e : I.Choice}
    (hok : OverOk P y (.readCall e)) (hs : overStep I (.readCall e) y = some y') :
    Matched D P Q y y' (.readCall e) ∧ OverInv D P At y' := by
  rw [overStep] at hs
  split at hs
  · next k woff total got r todo hf hnone =>
    obtain ⟨⟨bytes, st⟩, hread, rfl⟩ := Option.map_eq_some_iff.mp hs
    have hat := h.at_
    rw [Over.ahead_none hnone, Nat.add_zero] at hat
    obtain ⟨hbytes, hat⟩ := hI.read _ _ e _ _ _ hat (hok _ _ _ _ _ _ hf) hread
    refine ⟨.inl rfl, h.args, hat, fun stored rest heq => ?_⟩
    obtain ⟨rfl, rfl⟩ := Prod.mk.inj (Option.some.inj heq)
    exact ⟨k, woff, total, got, r, todo, hf, hbytes, rfl⟩
  · cases hs

theorem OverInv.readStore (h : OverInv D P At y) (hs : overStep I .readStore y = some y') :
    Matched D P Q y y' .readStore ∧ OverInv D P At y' := by
  rw [overStep] at hs
  split at hs
  · next stored b rest hreading =>
    obtain ⟨x', hx', rfl⟩ := Option.map_eq_some_iff.mp hs
    refine ⟨.inr ⟨_, hx', trivial, fun _ => trivial, nofun⟩, ?_⟩
    obtain ⟨⟨s', f'⟩, hb, rfl⟩ := Option.map_eq_some_iff.mp hx'
    obtain ⟨k, woff, total, got, r, todo, hf, hbytes, hdata⟩ := h.reading stored _ hreading
    have hat := h.at_
    rw [Over.ahead_some hreading] at hat
    rw [hf] at hb
    cases fstep_cases hb with
    | store hp =>
        cases pstep_cases hp with
        | store _ hi =>
            have happend : stored ++ b :: rest = stored ++ [b] ++ rest := by simp
            refine ⟨h.args, ?_, fun stored' rest' heq => ?_⟩
            · rw [happend] at hat
              exact hat
            · obtain ⟨rfl, rfl⟩ := Prod.mk.inj (Option.some.inj heq)
              refine ⟨k, woff, total, got, r, todo, rfl, happend ▸ hbytes, ?_⟩
              rw [List.length_append, ByteMem.read_add, List.map_append]
              congr 1
              · rw [← hdata]
                refine ByteMem.read_congr fun i hlt => ?_
                exact ByteMem.set_of_ne _ _ (by omega)
              · show [ByteMem.set _ _ _ (r.there + stored.length + 0)] = _
                rw [Nat.add_zero, ByteMem.set_self]
                rfl
  · cases hs

theorem OverInv.readRet (h : OverInv D P At y) (hs : overStep I .readRet y = some y') :
    Matched D P Q y y' .readRet ∧ OverInv D P At y' := by
  rw [overStep] at hs
  split at hs
  · next stored hreading =>
    obtain ⟨x', hx', rfl⟩ := Option.map_eq_some_iff.mp hs
    obtain ⟨k, woff, total, got, r, todo, hf, hbytes, hdata⟩ := h.reading stored _ hreading
    have hat := h.at_
    rw [Over.ahead_some hreading, List.append_nil] at hat
    rw [List.append_nil] at hbytes
    have hlen := congrArg List.length hbytes
    rw [List.length_take, List.length_drop] at hlen
    have hok : InnerOk D y.x (.filler (.readRet stored.length)) := by
      intro k' woff' total' got' r' todo' hf'
      rw [hf] at hf'
      injection hf' with hf'
      injection hf' with _ _ _ _ hregion
      injection hregion with hr _
      rw [← hr, hdata]
      refine ⟨hlen, ?_⟩
      rw [hlen, ← List.length_drop, ← List.take_eq_take_min, ← hbytes]
    refine ⟨.inr ⟨_, hx', hok, fun _ => trivial, nofun⟩, ?_⟩
    obtain ⟨⟨s', f'⟩, hb, rfl⟩ := Option.map_eq_some_iff.mp hx'
    rw [hf] at hb
    cases fstep_cases hb with
    | readRet hp => exact ⟨h.args, hat, nofun⟩
  · cases hs

/-- The return of an inner seek, to the position that the inner stream then
is at. -/
theorem seekSet_tell (hI : I.Gives D P Q At) {st st' : I.State} {pos : Nat} {e : I.Choice}
    {off code : Int} (hat : At st pos) (hP : P off) (hok : I.seekOk st e off)
    (hseek : I.seek st e off slSeekSet = some (code, st')) :
    SeekSet off pos code (I.tell st').toNat ∧ At st' (I.tell st').toNat
      ∧ (Q off → code = 0) := by
  rcases hI.seek _ _ _ _ _ _ hat hP hok hseek with ⟨rfl, hoff, hat'⟩ | ⟨hcode, hrefused, hat'⟩
  · rw [hI.tell _ _ hat', Int.toNat_natCast]
    exact ⟨⟨fun _ => Int.toNat_of_nonneg hoff, fun hne => absurd rfl hne⟩, hat', fun _ => rfl⟩
  · rw [hI.tell _ _ hat', Int.toNat_natCast]
    exact ⟨⟨fun hzero => absurd hzero hcode, fun _ => rfl⟩, hat', fun hQ => absurd hQ hrefused⟩

theorem OverInv.fillerSeek (hI : I.Gives D P Q At) (hx : SeekInv y.x.s y.x.f y.x.u)
    (h : OverInv D P At y) {e : I.Choice} (hok : OverOk P y (.fillerSeek e))
    (hs : overStep I (.fillerSeek e) y = some y') :
    Matched D P Q y y' (.fillerSeek e) ∧ OverInv D P At y' := by
  rw [overStep] at hs
  split at hs
  · next off whence hf =>
    obtain ⟨⟨code, st⟩, hseek, hs⟩ := Option.bind_eq_some_iff.mp hs
    obtain ⟨x', hx', rfl⟩ := Option.map_eq_some_iff.mp hs
    have hnone : y.reading = none := by
      cases hreading : y.reading with
      | none => rfl
      | some sr =>
          obtain ⟨k, woff, total, got, r, todo, hw, -⟩ := h.reading sr.1 sr.2 hreading
          rw [hf] at hw
          cases hw
    have hat := h.at_
    rw [Over.ahead_none hnone, Nat.add_zero] at hat
    obtain ⟨rfl, hP⟩ := h.args off whence (by rw [hf] at hx; exact hx.args)
    obtain ⟨hset, hat', hzero⟩ := seekSet_tell hI hat hP (hok _ _ hf) hseek
    have hinner : InnerOk D y.x (.filler (.seekRet code (I.tell st).toNat)) := by
      intro off' whence' hf'
      rw [hf] at hf'
      injection hf' with hoff
      rw [← hoff]
      exact hset
    refine ⟨.inr ⟨_, hx', hinner, fun hall => hzero (hall off hP), nofun⟩, ?_⟩
    obtain ⟨⟨s', f'⟩, hb, rfl⟩ := Option.map_eq_some_iff.mp hx'
    rw [hf] at hb
    cases fstep_cases hb with
    | seekRet =>
        refine ⟨h.args, ?_, fun stored rest heq => ?_⟩
        · rw [Over.ahead_none]
          exacts [hat', hnone]
        · rw [hnone] at heq
          cases heq
  · cases hs

theorem OverInv.userSeek (hI : I.Gives D P Q At) (hx : SeekInv y.x.s y.x.f y.x.u)
    (h : OverInv D P At y) {e : I.Choice} (hok : OverOk P y (.userSeek e))
    (hs : overStep I (.userSeek e) y = some y') :
    Matched D P Q y y' (.userSeek e) ∧ OverInv D P At y' := by
  rw [overStep] at hs
  split at hs
  · next off whence hu =>
    obtain ⟨⟨code, st⟩, hseek, hs⟩ := Option.bind_eq_some_iff.mp hs
    obtain ⟨x', hx', rfl⟩ := Option.map_eq_some_iff.mp hs
    rw [hu] at hx
    obtain ⟨⟨hoff, -⟩, hstarted⟩ := hx.uat
    -- the user makes the inner seek itself only before the filler has started
    have hnone : y.reading = none := by
      cases hreading : y.reading with
      | none => rfl
      | some sr =>
          obtain ⟨k, woff, total, got, r, todo, hw, -⟩ := h.reading sr.1 sr.2 hreading
          rw [hw] at hx
          rw [hx.started.mpr rfl] at hstarted
          cases hstarted
    have hat := h.at_
    rw [Over.ahead_none hnone, Nat.add_zero] at hat
    obtain ⟨rfl, hP⟩ := h.args off whence (by rw [hu]; rfl)
    obtain ⟨hset, hat', hzero⟩ := seekSet_tell hI hat hP (hok _ _ hu) hseek
    have hinner : InnerOk D y.x (.user (.seekRet code (I.tell st).toNat)) := by
      show SeekSet y.x.s.seekOff _ _ _
      rw [hoff]
      exact hset
    refine ⟨.inr ⟨_, hx', hinner, fun hall => hzero (hall off hP), nofun⟩, ?_⟩
    obtain ⟨⟨s', u'⟩, hb, rfl⟩ := Option.map_eq_some_iff.mp hx'
    rw [hu] at hb
    cases ustep_cases hb with
    | seekRet =>
        refine ⟨nofun, ?_, fun stored rest heq => ?_⟩
        · rw [Over.ahead_none]
          exacts [hat', hnone]
        · rw [hnone] at heq
          cases heq
  · cases hs

theorem OverInv.next (hI : I.Gives D P Q At) (hx : SeekInv y.x.s y.x.f y.x.u)
    (hc : CircInv c y.x.s y.x.f y.x.u) (h : OverInv D P At y) {a : OAct I} (hok : OverOk P y a)
    (hs : overStep I a y = some y') : Matched D P Q y y' a ∧ OverInv D P At y' := by
  cases a with
  | base a =>
      obtain ⟨ha, x', hx', rfl⟩ := overStep_base hs
      obtain ⟨hi, hseeks⟩ := base_ok (D := D) ha hok
      exact ⟨.inr ⟨a, hx', hi, fun _ => hseeks, fun _ => rfl⟩, h.base hx hc ha hok hx'⟩
  | readCall e => exact h.readCall hI hok hs
  | readStore => exact h.readStore hs
  | readRet => exact h.readRet hs
  | fillerSeek e => exact h.fillerSeek hI hx hok hs
  | userSeek e => exact h.userSeek hI hx hok hs

end Steps

/-! ## Runs -/

section Runs

variable {I : InnerStream β} {D : List β} {P Q : Int → Prop} {At : I.State → Nat → Prop}
  {y : Over I}

/-- A run of the two streams together is a run of `buffered`. -/
theorem over_run {okO : Over I → OAct I → Prop} {ok : Stream (β × Nat) → BAct (β × Nat) → Prop}
    (hI : I.Gives D P Q At) (hokO : ∀ y a, okO y a → OverOk P y a)
    (hok : ∀ y a b, okO y a → InnerOk D y.x b →
      ((∀ off, P off → Q off) → SeeksSucceed y.x b) → (b.inner = false → a = .base b) → ok y.x b)
    (h : (bufferedOver I c step).Reach okO y) :
    (buffered (β × Nat) c step).Reach ok y.x ∧ OverInv D P At y := by
  refine h.invariant
    (I := fun y => (buffered (β × Nat) c step).Reach ok y.x ∧ OverInv D P At y)
    (fun y hy => ?_) (fun y a y' _ hi ha hs => ?_)
  · obtain ⟨hx, hinner, hnone⟩ := hy
    refine ⟨.init hx, ?_⟩
    have hat := hI.init _ hinner
    obtain ⟨env, others, s, hcreate, -, hxeq⟩ := hx
    obtain ⟨cb, -, -, rfl⟩ := slBufferCreate2_eq hcreate
    refine ⟨?_, ?_, fun stored rest heq => ?_⟩
    · rw [hxeq]; nofun
    · rw [Over.ahead_none hnone, hxeq]; exact hat
    · rw [hnone] at heq; cases heq
  · obtain ⟨hr, hi⟩ := hi
    obtain ⟨hmatched, hi'⟩ :=
      hi.next hI (seekInv_of_reach hr) (circInv_of_reach hr) (hokO y a ha) hs
    refine ⟨?_, hi'⟩
    rcases hmatched with heq | ⟨b, hb, hinner, hseeks, hbase⟩
    · rw [heq]; exact hr
    · exact hr.step (hok y a b ha hinner hseeks hbase) hb

theorem over_reach (hI : I.Gives D P Q At) (h : (bufferedOver I c step).Reach (OverOk P) y) :
    (buffered (β × Nat) c step).Reach (InnerOk D) y.x ∧ OverInv D P At y :=
  over_run hI (fun _ _ ha => ha) (fun _ _ _ _ hinner _ _ => hinner) h

/-- The calls of `OverOk` in which writing is not closed between the two
loads. -/
def OverExact (P : Int → Prop) (y : Over I) (a : OAct I) : Prop :=
  OverOk P y a ∧ ∀ b, a = .base b → ¬ y.x.ClosesBetween b

theorem over_exact (hI : I.Gives D P Q At) (hP : ∀ off, P off → Q off)
    (h : (bufferedOver I c step).Reach (OverExact P) y) :
    (buffered (β × Nat) c step).Reach (ExactOk D) y.x := by
  refine (over_run hI (fun _ _ ha => ha.1) (fun y a b ha hinner hseeks hbase => ?_) h).1
  refine ⟨hinner, hseeks hP, fun hrace => ?_⟩
  have ha' := hbase (by rw [hrace.1]; rfl)
  exact ha.2 b ha' hrace

/-- How far the inner stream is ahead of the user. -/
theorem OverInv.ahead_le (hI : I.Gives D P Q At)
    (hr : (buffered (β × Nat) c step).Reach (InnerOk D) y.x) (h : OverInv D P At y)
    (hidle : y.x.u = .idle) : y.x.s.pos ≤ I.tell y.inner ∧ I.tell y.inner ≤ y.x.s.pos + c := by
  obtain ⟨hlow, hhigh⟩ := inner_ahead_le hr hidle
  have hasked : y.ahead ≤ y.x.f.asked := by
    rw [Over.ahead]
    split
    · next stored rest hreading =>
      obtain ⟨k, woff, total, got, r, todo, hf, hbytes, -⟩ := h.reading stored rest hreading
      rw [hbytes, hf, List.length_take]
      exact Nat.min_le_left _ _
    · exact Nat.zero_le _
  rw [hI.tell _ _ h.at_]
  omega

/-- The user's stream is the content of the inner stream, which is ahead of
the user by no more than the size of the buffer. -/
theorem over_content (hI : I.Gives D P Q At) (h : (bufferedOver I c step).Reach (OverOk P) y) :
    (∃ p, (content D).Reach Lts.Any p ∧ p.trace = y.x.s.trace.map Event.content)
      ∧ (y.x.u = .idle → y.x.s.pos ≤ I.tell y.inner ∧ I.tell y.inner ≤ y.x.s.pos + c) := by
  obtain ⟨hr, hi⟩ := over_reach hI h
  obtain ⟨p, hp, hfollows⟩ := content_of_reach hr
  exact ⟨⟨p, hp, hfollows.trace⟩, hi.ahead_le hI hr⟩

theorem over_content_exact (hI : I.Gives D P Q At) (hP : ∀ off, P off → Q off)
    (h : (bufferedOver I c step).Reach (OverExact P) y) :
    ∃ p, (content D).Reach (Exact D) p ∧ p.trace = y.x.s.trace.map Event.content := by
  obtain ⟨p, hp, hfollows⟩ := exact_of_reach (over_exact hI hP h)
  exact ⟨p, hp, hfollows.trace⟩

/-- The actions of the filler thread, but for its seeks. -/
def FillerActs (e : I.Choice) (a : OAct I) : Prop :=
  a = .base (.filler .go) ∨ a = .readCall e ∨ a = .readStore ∨ a = .readRet

theorem FillerActs.user {e : I.Choice} {a : OAct I} {y' : Over I} (ha : FillerActs e a)
    (h : overStep I a y = some y') : y'.x.u = y.x.u := by
  have hfiller : ∀ {b : FAct (β × Nat)} {x : Stream (β × Nat)},
      streamStep (.filler b) y.x = some x → x.u = y.x.u := by
    intro b x hb
    obtain ⟨-, -, rfl⟩ := Option.map_eq_some_iff.mp hb
    rfl
  rcases ha with rfl | rfl | rfl | rfl
  · obtain ⟨-, x, hx, rfl⟩ := overStep_base h
    exact hfiller hx
  all_goals
    rw [overStep] at h
    split at h
  · obtain ⟨-, -, rfl⟩ := Option.map_eq_some_iff.mp h
    rfl
  · cases h
  · obtain ⟨x, hx, rfl⟩ := Option.map_eq_some_iff.mp h
    exact hfiller hx
  · cases h
  · obtain ⟨x, hx, rfl⟩ := Option.map_eq_some_iff.mp h
    exact hfiller hx
  · cases h

/-- A run of the filler while the user is not reading. -/
theorem FillerActs.reach {e : I.Choice} (hread : ∀ st len, I.readOk st e len)
    {acts : List (OAct I)} (hacts : ∀ a ∈ acts, FillerActs e a) {y' : Over I}
    (hu : ∀ tell₀ q, y.x.u ≠ .read tell₀ q) (hy : (bufferedOver I c step).Reach (OverExact P) y)
    (h : (bufferedOver I c step).run acts y = some y') :
    (bufferedOver I c step).Reach (OverExact P) y' := by
  refine .runOn (P := fun z => ∀ tell₀ q, z.x.u ≠ .read tell₀ q) (fun a ha z hz => ?_)
    (fun a ha z z' hz hs => ?_) hy hu h
  · have hopen : ∀ b, a = .base b → ¬ z.x.ClosesBetween b := by
      rintro b - ⟨-, -, ⟨tell₀, k, hk⟩, -⟩
      exact hz tell₀ _ hk
    rcases hacts a ha with rfl | rfl | rfl | rfl
    · exact ⟨trivial, hopen⟩
    · exact ⟨fun _ _ _ _ r _ _ => hread _ r.length, hopen⟩
    · exact ⟨trivial, hopen⟩
    · exact ⟨trivial, hopen⟩
  · rw [(hacts a ha).user hs]
    exact hz

end Runs

end Streamlike
