import Streamlike.BufferCirc

/-!
# The buffered stream is transparent

The inner stream is a fixed sequence `D` with a position (`InnerOk`). The
bytes it has handed over since the last successful seek are the bytes of
`D` from where that seek put it (`Fetched`): those released by the user,
those in the ring and those still in the filler's hands, in this order.
The user's offset is that place plus the bytes released (`PosOk`), except
between the inner seek and the end of the reset that follows it.

Cells hold a byte with the epoch in which the inner stream handed it over,
so that a byte buffered before a seek can be told from one after it.
-/

namespace Streamlike

variable {α β : Type} {c step : Nat}

/-! ## The inner stream -/

/-- `seek(SL_SEEK_SET)`: the position is set, or left as it is. -/
def SeekSet (off : Int) (pos : Nat) (result : Int) (dest : Nat) : Prop :=
  (result = 0 → (dest : Int) = off) ∧ (result ≠ 0 → dest = pos)

/-- What the inner stream `D` may answer: a read gives the next bytes, as
many as were asked for or remain. The user seeks with `SL_SEEK_SET`. -/
def InnerOk (D : List β) (x : Stream (β × Nat)) : BAct (β × Nat) → Prop
  | .filler (.readRet n) => ∀ k woff total got r todo,
      x.f = .write (.writer k woff total got (r :: todo)) →
        n = min r.length (D.length - x.s.inner)
          ∧ x.s.cbuf.cb.data.read r.there n
            = ((D.drop x.s.inner).take n).map fun b => (b, x.s.epoch)
  | .filler (.seekRet result dest) => ∀ off whence, x.f = .innerSeek off whence →
      SeekSet off x.s.inner result dest
  | .user (.seekRet result dest) => SeekSet x.s.seekOff x.s.inner result dest
  | .user (.call (.seek _ whence)) => whence = slSeekSet
  | _ => True

/-- `l` are the bytes of `D` from `base`, handed over in epoch `epoch`; the
inner stream stands after them. -/
structure Fetched (D : List β) (base epoch inner : Nat) (l : List (β × Nat)) : Prop where
  bytes : l = ((D.drop base).take l.length).map fun b => (b, epoch)
  inner : inner = base + l.length

theorem Fetched.nil (D : List β) (base epoch : Nat) : Fetched D base epoch base [] :=
  ⟨rfl, rfl⟩

theorem Fetched.extend {D : List β} {base epoch inner len n : Nat} {l : List (β × Nat)}
    (h : Fetched D base epoch inner l) (hn : n = min len (D.length - inner)) :
    Fetched D base epoch (inner + n)
      (l ++ ((D.drop inner).take n).map fun b => (b, epoch)) := by
  have hlen : (((D.drop inner).take n).map fun b => (b, epoch)).length = n := by
    rw [List.length_map, List.length_take, List.length_drop]
    omega
  refine ⟨?_, by rw [List.length_append, hlen, h.inner, Nat.add_assoc]⟩
  rw [List.length_append, hlen, List.take_add, List.map_append, List.drop_drop, ← h.inner,
    ← h.bytes]

/-- A part of the bytes fetched is a part of `D`. -/
theorem Fetched.slice {D : List β} {base epoch inner : Nat} {l pre bytes : List (β × Nat)}
    (h : Fetched D base epoch inner l) (hpre : pre ++ bytes <+: l) :
    bytes.map Prod.fst = (D.drop (base + pre.length)).take bytes.length
      ∧ ∀ b ∈ bytes, b.2 = epoch := by
  obtain ⟨rest, rfl⟩ := hpre
  have hfst : (pre ++ bytes ++ rest).map Prod.fst
      = (D.drop base).take (pre ++ bytes ++ rest).length := by
    conv_lhs => rw [h.bytes]
    rw [List.map_map]
    exact List.map_id _
  have hslice := congrArg (fun l => (l.drop pre.length).take bytes.length) hfst
  constructor
  · simpa [List.drop_take, List.drop_drop, List.take_take] using hslice
  · intro b hb
    have hmem : b ∈ pre ++ bytes ++ rest :=
      List.mem_append_left _ (List.mem_append_right _ hb)
    rw [h.bytes] at hmem
    obtain ⟨b', _, rfl⟩ := List.mem_map.mp hmem
    rfl

/-! ## The invariant -/

/-- The inner seek has been made and the buffer not been reset. -/
def FPc.unreset : FPc α → Bool
  | .storeResult _ | .seekLock | .testResult | .reset0 | .reset1 | .reset2 | .reset3 => true
  | _ => false

/-- What is in the ring is from before a successful inner seek. -/
def FPc.stale (s : SlBuffer α) (f : FPc α) : Bool := f.unreset && decide (f.result s = 0)

/-- The request has been answered with success. -/
def FPc.success (s : SlBuffer α) (f : FPc α) : Bool :=
  (f.answering || !s.seekRequested) && decide (f.result s = 0)

def FPc.inflight : FPc α → List α
  | .write p => p.inflight
  | _ => []

/-- The bytes of the inner stream that have been handed over. -/
def FetchOk (D : List β) (base epoch inner : Nat) (l : List (β × Nat)) : Bool → Prop
  | true => inner = base
  | false => Fetched D base epoch inner l

/-- The user's offset, against the bytes released in this epoch. -/
def PosOk (pos : Int) (base : Nat) (released : List α) (result : Int) (success stale : Bool) :
    UPc α → Prop
  | .read tell₀ q => tell₀ = pos ∧ ∃ len pre, q.Read len pre ∧ pos = base + pre.length
  | .readPos tell₀ k =>
      tell₀ = pos ∧ pos = base + k.pre.length ∧ released = k.pre ++ k.buf.read 0 k.read
  | .closeRead off _ _ | .signalFiller off _ | .testReq off _ | .wait off _ | .parked off _ =>
      (success = true → (base : Int) = off ∧ (stale = false → released = []))
        ∧ (success = false → pos = base + released.length)
  | .storeResult off _ result =>
      (result = 0 → (base : Int) = off ∧ released = [])
        ∧ (result ≠ 0 → pos = base + released.length)
  | .seekUnlock off _ _ | .testResult off _ _ =>
      (result = 0 → (base : Int) = off ∧ released = [])
        ∧ (result ≠ 0 → pos = base + released.length)
  | .storePos off _ _ => (base : Int) = off ∧ released = []
  | .storeEof off _ _ => pos = off ∧ (base : Int) = off ∧ released = []
  | .endLock | .endClose _ | .endSignal | .endUnlock | .join | .destroyed => True
  | _ => pos = base + released.length

/-- What `tell` gives after a call: a read advances it by the bytes it
returned, a successful seek sets it. -/
def Event.tell (pos : Int) : Event α → Int
  | .read _ _ bytes _ _ _ => pos + bytes.length
  | .seek off _ code _ _ _ => if code = 0 then off else pos

/-- The offset of the last successful seek plus the bytes read since. -/
def lastTell (trace : List (Event α)) : Int := trace.foldl Event.tell 0

/-- Each read that returned `n` bytes at offset `p` returned `D[p .. p+n)`,
all of them handed over in its own epoch. -/
def EventOk (D : List β) : Event (β × Nat) → Prop
  | .read tell₀ _ bytes epoch _ _ =>
      0 ≤ tell₀ ∧ bytes.map Prod.fst = (D.drop tell₀.toNat).take bytes.length
        ∧ ∀ b ∈ bytes, b.2 = epoch
  | .seek .. => True

structure DataInv (D : List β) (s : SlBuffer (β × Nat)) (f : FPc (β × Nat))
    (u : UPc (β × Nat)) : Prop where
  fetched : FetchOk D s.base s.epoch s.inner (s.cbuf.produced ++ f.inflight) (f.stale s)
  starting : f.starting = true → s.cbuf.produced = []
  pos : PosOk s.pos s.base s.cbuf.released s.seekResult (f.success s) (f.stale s) u
  tell : (∀ off whence found, u ≠ .storeEof off whence found) → s.pos = lastTell s.trace
  events : ∀ e ∈ s.trace, EventOk D e

/-! ## The filler's steps -/

theorem FPc.unreset_of {f : FPc α} (hf : f.answering = false) : f.unreset = false := by
  cases f <;> first | rfl | cases hf

/-- While the user waits, its offset depends on the outcome alone. -/
theorem posOk_awaits {s : SlBuffer α} {pos : Int} {base : Nat} {released : List α} {result : Int}
    {success stale : Bool} {u : UPc α} (hu : u.awaits = true) (hat : UAt s u) :
    PosOk pos base released result success stale u
      ↔ (success = true → (base : Int) = s.seekOff ∧ (stale = false → released = []))
        ∧ (success = false → pos = base + released.length) := by
  cases u with
  | closeRead off whence q | signalFiller off whence | wait off whence =>
      obtain ⟨⟨rfl, -⟩, -⟩ := hat
      exact .rfl
  | testReq off whence | parked off whence =>
      obtain ⟨rfl, -⟩ := hat
      exact .rfl
  | _ => cases hu

/-- A circbuf step of the filler: the bytes handed over grow by `d`, the
user's part is as it was. -/
theorem DataInv.circ {D : List β} {s : SlBuffer (β × Nat)} {f : FPc (β × Nat)}
    {u : UPc (β × Nat)} (hi : DataInv D s f u) (f' : FPc (β × Nat)) {cbuf : Shared (β × Nat)}
    {n : Nat} {d : List (β × Nat)} (hf : f.answering = false) (hf' : f'.answering = false)
    (hst : f'.starting = false)
    (hgrow : cbuf.produced ++ f'.inflight = s.cbuf.produced ++ f.inflight ++ d)
    (hd : ∀ l, Fetched D s.base s.epoch s.inner l →
      Fetched D s.base s.epoch (s.inner + n) (l ++ d))
    (hrel : cbuf.released = s.cbuf.released) :
    DataInv D { s with cbuf, inner := s.inner + n } f' u where
  fetched := by
    have hold := hi.fetched
    simp only [FPc.stale, FPc.unreset_of hf, FPc.unreset_of hf', Bool.false_and] at hold ⊢
    rw [hgrow]
    exact hd _ hold
  starting := fun h => by rw [hst] at h; cases h
  pos := by
    have hold := hi.pos
    simp only [FPc.stale, FPc.success, FPc.unreset_of hf, FPc.unreset_of hf', hf, hf',
      FPc.result_eq hf, FPc.result_eq hf'] at hold ⊢
    rw [hrel]
    exact hold
  tell := hi.tell
  events := hi.events

/-- A step of the filler's `circbuf_write2`. -/
theorem write_data {D : List β} {a : PAct (β × Nat)} {s : SlBuffer (β × Nat)}
    {p p' : PPc (β × Nat)} {u : UPc (β × Nat)} {cbuf : Shared (β × Nat)} {n : Nat}
    (hc : CircInv c s (.write p) u) (hi : DataInv D s (.write p) u)
    (hp : pstep a s.cbuf p = some (cbuf, p')) (hret : ∀ k n, p ≠ .ret k n)
    (hd : ∀ l, Fetched D s.base s.epoch s.inner l →
      Fetched D s.base s.epoch (s.inner + n) (l ++ a.fetched s.cbuf p)) :
    DataInv D { s with cbuf, inner := s.inner + n } (.write p') u := by
  obtain ⟨-, hgrow⟩ := pstep_write2 hc.fcall hp hret
  have hframe := (pstep_ok (hc.ring nofun) hc.prod hp).frame
  exact hi.circ (.write p') rfl rfl rfl hgrow hd hframe.released

theorem fgo_data {D : List β} {s s' : SlBuffer (β × Nat)} {f f' : FPc (β × Nat)}
    {u : UPc (β × Nat)} (hx : SeekInv s f u) (hc : CircInv c s f u) (hi : DataInv D s f u)
    (h : fgo s f = some (s', f')) : DataInv D s' f' u := by
  have hsame : ∀ l, Fetched D s.base s.epoch s.inner l →
      Fetched D s.base s.epoch (s.inner + 0) (l ++ []) := fun l hl => by
    rw [List.append_nil]; exact hl
  cases f with
  | startLock | seekLock | parked =>
      obtain ⟨_, h⟩ := Option.ite_none_right_eq_some.mp h
      obtain ⟨rfl, rfl⟩ := Prod.mk.inj (Option.some.inj h)
      exact { hi with }
  | start | startUnlock | loadOff | loadWhence off | reset0 | reset1 | reset2 | clearReq
  | signalUser | wait | endUnlock =>
      obtain ⟨rfl, rfl⟩ := Prod.mk.inj (Option.some.inj h)
      exact { hi with starting := fun h => by cases h }
  | loopR | testRead =>
      obtain ⟨rfl, rfl⟩ := Prod.mk.inj (Option.some.inj h)
      split <;> exact { hi with }
  | loopQ =>
      rcases fgo_loopQ h with ⟨-, rfl, rfl⟩ | ⟨-, rfl, rfl⟩ <;> exact { hi with }
  | ifReq =>
      obtain ⟨rfl, rfl⟩ := Prod.mk.inj (Option.some.inj h)
      split
      · exact { hi with }
      · exact { hi with }
  | innerSeek off whence => cases h
  | storeResult result =>
      obtain ⟨rfl, rfl⟩ := Prod.mk.inj (Option.some.inj h)
      have haw := hx.req (hx.busy (.inr rfl))
      exact { hi with
        pos := (posOk_awaits haw hx.uat).mpr ((posOk_awaits haw hx.uat).mp hi.pos) }
  | testResult =>
      obtain ⟨rfl, rfl⟩ := Prod.mk.inj (Option.some.inj h)
      split
      · exact { hi with }
      · next hne =>
        have hfresh : FPc.stale s (.testResult : FPc (β × Nat)) = false := by
          simp [FPc.stale, FPc.result, hne]
        have hfetched := hi.fetched
        have hpos := hi.pos
        rw [hfresh] at hfetched hpos
        exact { hi with fetched := hfetched, pos := hpos }
  | reset3 =>
      obtain ⟨rfl, rfl⟩ := Prod.mk.inj (Option.some.inj h)
      obtain ⟨off, whence, rfl⟩ := hx.parked rfl rfl
      have hzero : s.seekResult = 0 := hx.fat
      have hstale : FPc.stale s (.reset3 : FPc (β × Nat)) = true := by
        simp [FPc.stale, FPc.unreset, FPc.result, hzero]
      have hsuccess : FPc.success s (.reset3 : FPc (β × Nat)) = true := by
        simp [FPc.success, FPc.answering, FPc.result, hzero]
      have hinner := hi.fetched
      rw [hstale] at hinner
      have hinner : s.inner = s.base := hinner
      have hbase := (hi.pos.1 hsuccess).1
      refine { hi with fetched := ?_, starting := (fun h => by cases h), pos := ?_ }
      · show Fetched D s.base s.epoch s.inner []
        rw [hinner]
        exact .nil D s.base s.epoch
      · refine ⟨fun _ => ⟨hbase, fun _ => rfl⟩, fun hno => ?_⟩
        have hyes : FPc.success s (.clearReq : FPc (β × Nat)) = true := hsuccess
        exact absurd (hno.symm.trans hyes) (by decide)
  | seekUnlock =>
      obtain ⟨rfl, rfl⟩ := Prod.mk.inj (Option.some.inj h)
      exact { hi with }
  | write p =>
      rcases fgo_write h with ⟨k, written, rfl, rfl, rfl⟩ | ⟨hret, cbuf, p', hp, rfl, rfl⟩
      · split <;> exact { hi with }
      · exact write_data (a := .go) hc hi hp hret hsame
  | endLock =>
      obtain ⟨_, h⟩ := Option.ite_none_right_eq_some.mp h
      obtain ⟨rfl, rfl⟩ := Prod.mk.inj (Option.some.inj h)
      exact { hi with }
  | closeWrite p =>
      rcases fgo_closeWrite h with ⟨code, rfl, rfl, rfl⟩ | ⟨hclosed, cbuf, p', hp, rfl, rfl⟩
      · exact { hi with }
      · obtain ⟨-, hprod⟩ := pgo_closing hc.fcall hp hclosed
        have hframe := (pgo_ok (hc.ring (fun h => by cases h)) hc.prod hp).frame
        refine hi.circ (.closeWrite p') rfl rfl rfl ?_ hsame hframe.released
        rw [hprod, List.append_nil]
        rfl
  | exited => cases h

theorem fstep_data {D : List β} {a : FAct (β × Nat)} {s s' : SlBuffer (β × Nat)}
    {f f' : FPc (β × Nat)} {u : UPc (β × Nat)} (hx : SeekInv s f u) (hc : CircInv c s f u)
    (hi : DataInv D s f u) (hok : InnerOk D ⟨s, f, u⟩ (.filler a))
    (h : fstep a s f = some (s', f')) : DataInv D s' f' u := by
  have hsame : ∀ l, Fetched D s.base s.epoch s.inner l →
      Fetched D s.base s.epoch (s.inner + 0) (l ++ []) := fun l hl => by
    rw [List.append_nil]; exact hl
  cases fstep_cases h with
  | go h => exact fgo_data hx hc hi h
  | store hp | spurious hp => exact write_data hc hi hp (by rintro k n rfl; cases hp) hsame
  | readRet hp =>
      cases pstep_cases hp with
      | wret hle =>
          obtain ⟨hn, hbytes⟩ := hok _ _ _ _ _ _ rfl
          refine write_data hc hi hp (fun _ _ h => by cases h) fun l hl => ?_
          rw [PAct.fetched, hbytes]
          exact hl.extend hn
  | seekRet off whence result dest =>
      obtain ⟨hset, hkeep⟩ := hok off whence rfl
      have hreq := hx.busy (.inl rfl)
      have haw := hx.req hreq
      have hwaiting : FPc.success s (.innerSeek off whence : FPc (β × Nat)) = false := by
        simp [FPc.success, FPc.answering, hreq]
      have hpos := ((posOk_awaits haw hx.uat).mp hi.pos).2 hwaiting
      refine { hi with fetched := ?_, starting := (fun h => by cases h), pos := ?_ }
      · by_cases hzero : result = 0
        · simp [FetchOk, FPc.stale, FPc.unreset, FPc.result, SlBuffer.innerSeek, hzero]
        · have hfetched : Fetched D s.base s.epoch s.inner (s.cbuf.produced ++ []) := hi.fetched
          rw [← hkeep hzero] at hfetched
          simpa [FetchOk, FPc.stale, FPc.unreset, FPc.result, SlBuffer.innerSeek, hzero,
            FPc.inflight] using hfetched
      · refine (posOk_awaits (s := s) haw hx.uat).mpr ?_
        by_cases hzero : result = 0
        · simpa [FPc.success, FPc.stale, FPc.unreset, FPc.answering, FPc.result,
            SlBuffer.innerSeek, hzero, hx.fat.1] using hset hzero
        · simpa [FPc.success, FPc.stale, FPc.unreset, FPc.answering, FPc.result,
            SlBuffer.innerSeek, hzero] using hpos
  | wake hparked => exact { hi with }

/-! ## The user's steps -/

theorem FPc.stale_eq {s : SlBuffer α} {f : FPc α} (hf : f.answering = false) :
    f.stale s = false := by
  simp [FPc.stale, FPc.unreset_of hf]

/-- Before the filler has started, nothing has been handed over. -/
theorem DataInv.unstarted {D : List β} {s : SlBuffer (β × Nat)} {f : FPc (β × Nat)}
    {u : UPc (β × Nat)} (hx : SeekInv s f u) (hc : CircInv c s f u) (hi : DataInv D s f u)
    (hs : s.fillerStarted = false) :
    s.cbuf.produced ++ f.inflight = [] ∧ s.cbuf.released = [] := by
  have hst : f.starting = true := by
    cases hf : f.starting with
    | true => rfl
    | false => rw [hx.started.mpr hf] at hs; cases hs
  have hprod := hi.starting hst
  have hring : RingOk c s.cbuf := hc.ring (by rintro rfl; cases hst)
  have hhist := hring.history
  rw [hprod] at hhist
  refine ⟨?_, (List.append_eq_nil_iff.mp hhist.symm).1⟩
  rw [hprod]
  cases f with
  | startLock | start => rfl
  | _ => cases hst

/-- A circbuf step of the user. -/
theorem DataInv.consume {D : List β} {s : SlBuffer (β × Nat)} {f : FPc (β × Nat)}
    {u u' : UPc (β × Nat)} (hi : DataInv D s f u) {cbuf : Shared (β × Nat)}
    (hframe : ConsFrame s.cbuf cbuf)
    (hpos : PosOk s.pos s.base cbuf.released s.seekResult (f.success s) (f.stale s) u')
    (hu : ∀ off whence found, u ≠ .storeEof off whence found) :
    DataInv D { s with cbuf } f u' where
  fetched := by
    have hold := hi.fetched
    rw [← hframe.produced] at hold
    exact hold
  starting := fun hst => hframe.produced.trans (hi.starting hst)
  pos := hpos
  tell := fun _ => hi.tell hu
  events := hi.events

/-- A read returns the bytes it released, and they are bytes of `D`. -/
theorem readPos_data {D : List β} {s : SlBuffer (β × Nat)} {f : FPc (β × Nat)} {tell₀ : Int}
    {k : RCall (β × Nat)} (hx : SeekInv s f (.readPos tell₀ k))
    (hc : CircInv c s f (.readPos tell₀ k)) (hi : DataInv D s f (.readPos tell₀ k)) :
    EventOk D (.read tell₀ k.len (k.buf.read 0 k.read) s.epoch (s.pos + k.read) s.eof) := by
  obtain ⟨rfl, hbase, hrel⟩ := hi.pos
  obtain ⟨-, -, ha⟩ := hx.idle rfl
  have hring : RingOk c s.cbuf := hc.ring (by rintro rfl; cases ha)
  have hfetched := hi.fetched
  rw [FPc.stale_eq ha] at hfetched
  have hsub : k.pre ++ k.buf.read 0 k.read <+: s.cbuf.produced ++ f.inflight := by
    rw [hring.history, hrel, List.append_assoc]
    exact List.prefix_append _ _
  have hslice := Fetched.slice hfetched hsub
  have htoNat : s.pos.toNat = s.base + k.pre.length := by omega
  rw [← htoNat] at hslice
  exact ⟨by omega, hslice⟩

theorem lastTell_append (trace : List (Event α)) (e : Event α) :
    lastTell (trace ++ [e]) = e.tell (lastTell trace) := by
  rw [lastTell, List.foldl_append]
  rfl

theorem ugo_data {D : List β} {s s' : SlBuffer (β × Nat)} {f : FPc (β × Nat)}
    {u u' : UPc (β × Nat)} (hx : SeekInv s f u) (hc : CircInv c s f u) (hi : DataInv D s f u)
    (h : ugo s u = some (s', u')) : DataInv D s' f u' := by
  have hpos := hi.pos
  cases u with
  | idle => cases h
  | read tell₀ q =>
      obtain ⟨htell, len, pre, hread, hbase⟩ := hpos
      rcases ugo_read h with ⟨k, rfl, rfl, rfl⟩ | ⟨hret, cbuf, q', hq, rfl, rfl⟩
      · obtain ⟨k', hk, -, -, rfl⟩ := hread
        obtain rfl := Option.some.inj hk
        have hrel := hc.cons.sofar _ rfl
        split <;>
          exact { hi with
            pos := ⟨htell, hbase, hrel⟩
            tell := fun _ => hi.tell nofun }
      · have hf := hx.not_reset3 nofun
        have hread' := cgo_read hread hq hret
        exact hi.consume (cgo_ok (hc.ring hf) hc.cons hq).frame ⟨htell, len, pre, hread', hbase⟩
          nofun
  | readPos tell₀ k =>
      obtain ⟨rfl, rfl⟩ := Prod.mk.inj (Option.some.inj h)
      obtain ⟨htell, hbase, hrel⟩ := hpos
      refine { hi with pos := ?_, tell := fun _ => ?_, events := ?_ }
      · show s.pos + k.read = s.base + s.cbuf.released.length
        rw [hrel, List.length_append, ByteMem.length_read, hbase]
        omega
      · rw [lastTell_append, Event.tell, ← hi.tell nofun, ByteMem.length_read]
      · intro e he
        rcases List.mem_append.mp he with hold | hnew
        · exact hi.events e hold
        · obtain rfl := List.mem_singleton.mp hnew
          exact readPos_data hx hc hi
  | storeOff off whence | storeWhence off whence | signalFiller off whence | wait off whence =>
      obtain ⟨rfl, rfl⟩ := Prod.mk.inj (Option.some.inj h)
      exact { hi with pos := hpos, tell := fun _ => hi.tell nofun }
  | seekLock off whence | parked off whence =>
      obtain ⟨_, h⟩ := Option.ite_none_right_eq_some.mp h
      obtain ⟨rfl, rfl⟩ := Prod.mk.inj (Option.some.inj h)
      exact { hi with pos := hpos, tell := fun _ => hi.tell nofun }
  | testStarted off whence =>
      obtain ⟨rfl, rfl⟩ := Prod.mk.inj (Option.some.inj h)
      split <;> exact { hi with pos := hpos, tell := fun _ => hi.tell nofun }
  | setReq off whence =>
      obtain ⟨rfl, rfl⟩ := Prod.mk.inj (Option.some.inj h)
      obtain ⟨-, -, ha⟩ := hx.idle rfl
      refine { hi with pos := ?_, tell := fun _ => hi.tell nofun }
      refine ⟨fun hsuccess => ?_, fun _ => hpos⟩
      simp [FPc.success, ha] at hsuccess
  | closeRead off whence q =>
      rcases ugo_closeRead h with ⟨code, rfl, rfl, rfl⟩ | ⟨hclosed, cbuf, q', hq, rfl, rfl⟩
      · exact { hi with pos := hpos, tell := fun _ => hi.tell nofun }
      · have hf := hx.not_reset3 nofun
        obtain ⟨-, hrel⟩ := cgo_closing hc.ucall hq hclosed
        refine hi.consume (cgo_ok (hc.ring hf) hc.cons hq).frame ?_ nofun
        rw [hrel]
        exact hpos
  | testReq off whence =>
      obtain ⟨rfl, rfl⟩ := Prod.mk.inj (Option.some.inj h)
      split
      · exact { hi with pos := hpos, tell := fun _ => hi.tell nofun }
      · next hno =>
        have hno : s.seekRequested = false := by simpa using hno
        have ha : f.answering = false := Bool.eq_false_iff.mpr fun hf => by
          rw [hx.busy (.inr hf)] at hno; cases hno
        simp only [PosOk, FPc.stale_eq ha, FPc.success, ha, hno, FPc.result_eq ha] at hpos
        refine { hi with pos := ?_, tell := fun _ => hi.tell nofun }
        exact ⟨fun hzero => ⟨(hpos.1 (by simp [hzero])).1, (hpos.1 (by simp [hzero])).2 trivial⟩,
          fun hne => hpos.2 (by simp [hne])⟩
  | innerSeek off whence => cases h
  | storeResult off whence result =>
      obtain ⟨rfl, rfl⟩ := Prod.mk.inj (Option.some.inj h)
      obtain ⟨-, -, ha⟩ := hx.idle rfl
      have hfetched := hi.fetched
      rw [FPc.stale_eq ha] at hfetched
      refine { hi with fetched := ?_, pos := hpos, tell := fun _ => hi.tell nofun }
      rw [FPc.stale_eq ha]
      exact hfetched
  | seekUnlock off whence found =>
      obtain ⟨rfl, rfl⟩ := Prod.mk.inj (Option.some.inj h)
      exact { hi with pos := hpos, tell := fun _ => hi.tell nofun }
  | testResult off whence found =>
      obtain ⟨rfl, rfl⟩ := Prod.mk.inj (Option.some.inj h)
      split
      · next hzero =>
        exact { hi with pos := hpos.1 hzero, tell := fun _ => hi.tell nofun }
      · next hne =>
        exact { hi with pos := hpos.2 hne, tell := fun _ => hi.tell nofun }
  | storePos off whence found =>
      obtain ⟨rfl, rfl⟩ := Prod.mk.inj (Option.some.inj h)
      exact { hi with
        pos := ⟨rfl, hpos⟩
        tell := fun hne => absurd rfl (hne _ _ _) }
  | storeEof off whence found =>
      obtain ⟨rfl, rfl⟩ := Prod.mk.inj (Option.some.inj h)
      obtain ⟨hoff, hbase, hrel⟩ := hpos
      refine { hi with pos := ?_, tell := fun _ => ?_, events := ?_ }
      · show s.pos = s.base + s.cbuf.released.length
        rw [hrel, hoff, hbase]
        simp
      · rw [lastTell_append, Event.tell, if_pos rfl, hoff]
      · simpa [EventOk, or_imp, forall_and] using hi.events
  | retResult off whence found =>
      obtain ⟨rfl, rfl⟩ := Prod.mk.inj (Option.some.inj h)
      have hne : s.seekResult ≠ 0 := hx.uat
      refine { hi with pos := hpos, tell := fun _ => ?_, events := ?_ }
      · rw [lastTell_append, Event.tell, if_neg hne]
        exact hi.tell nofun
      · simpa [EventOk, or_imp, forall_and] using hi.events
  | endLock =>
      obtain ⟨_, h⟩ := Option.ite_none_right_eq_some.mp h
      obtain ⟨rfl, rfl⟩ := Prod.mk.inj (Option.some.inj h)
      exact { hi with pos := trivial, tell := fun _ => hi.tell nofun }
  | endClose q =>
      rcases ugo_endClose h with ⟨code, rfl, rfl, rfl⟩ | ⟨hclosed, cbuf, q', hq, rfl, rfl⟩
      · exact { hi with pos := trivial, tell := fun _ => hi.tell nofun }
      · have hf := hx.not_reset3 nofun
        exact hi.consume (cgo_ok (hc.ring hf) hc.cons hq).frame trivial nofun
  | endSignal | endUnlock =>
      obtain ⟨rfl, rfl⟩ := Prod.mk.inj (Option.some.inj h)
      exact { hi with pos := trivial, tell := fun _ => hi.tell nofun }
  | join =>
      obtain ⟨_, h⟩ := Option.ite_none_right_eq_some.mp h
      obtain ⟨rfl, rfl⟩ := Prod.mk.inj (Option.some.inj h)
      exact { hi with pos := trivial, tell := fun _ => hi.tell nofun }
  | destroyed => cases h

theorem ustep_data {D : List β} {a : UAct (β × Nat)} {s s' : SlBuffer (β × Nat)}
    {f : FPc (β × Nat)} {u u' : UPc (β × Nat)} (hx : SeekInv s f u) (hc : CircInv c s f u)
    (hi : DataInv D s f u) (hok : InnerOk D ⟨s, f, u⟩ (.user a))
    (h : ustep a s u = some (s', u')) : DataInv D s' f u' := by
  cases ustep_cases h with
  | go h => exact ugo_data hx hc hi h
  | call r =>
      cases r with
      | read buf len =>
          have hread : (CPc.loop ⟨buf, len, true, 0, s.cbuf.released⟩).Read len
              s.cbuf.released := ⟨_, rfl, rfl, rfl, rfl⟩
          exact { hi with
            pos := ⟨rfl, _, _, hread, hi.pos⟩
            tell := fun _ => hi.tell nofun }
      | seek off whence =>
          exact { hi with pos := hi.pos, tell := fun _ => hi.tell nofun }
      | destroy =>
          exact { hi with pos := trivial, tell := fun _ => hi.tell nofun }
  | seekRet off whence result dest =>
      obtain ⟨⟨rfl, -⟩, hs⟩ := hx.uat
      obtain ⟨hset, hkeep⟩ := hok
      obtain ⟨-, -, ha⟩ := hx.idle rfl
      obtain ⟨hnone, hrel⟩ := hi.unstarted hx hc hs
      have hfetched := hi.fetched
      rw [FPc.stale_eq ha] at hfetched
      refine { hi with fetched := ?_, pos := ⟨fun hzero => ?_, fun hne => ?_⟩,
                       tell := fun _ => hi.tell nofun }
      · rw [FPc.stale_eq ha]
        by_cases hzero : result = 0
        · simpa [FetchOk, SlBuffer.innerSeek, hzero, hnone] using Fetched.nil D dest _
        · rw [← hkeep hzero] at hfetched
          simpa [FetchOk, SlBuffer.innerSeek, hzero] using hfetched
      · exact ⟨by simpa [SlBuffer.innerSeek, hzero] using hset hzero, hrel⟩
      · have hpos : s.pos = s.base + s.cbuf.released.length := hi.pos
        simpa [SlBuffer.innerSeek, hne] using hpos
  | spurious hq =>
      obtain ⟨htell, len, pre, hread, hbase⟩ := hi.pos
      have hframe := (cstep_ok (hc.ring (hx.not_reset3 nofun)) hc.cons hq).frame
      cases cstep_cases hq with
      | spurious hparked => exact hi.consume hframe ⟨htell, len, pre, hread, hbase⟩ nofun
  | wake hparked => exact { hi with pos := hi.pos, tell := fun _ => hi.tell nofun }

/-! ## Runs -/

theorem dataInv_of_reach {D : List β} {ok : Stream (β × Nat) → BAct (β × Nat) → Prop}
    {x : Stream (β × Nat)} (hok : ∀ x a, ok x a → InnerOk D x a)
    (h : (buffered (β × Nat) c step).Reach ok x) : DataInv D x.s x.f x.u := by
  refine h.invariant (I := fun x => DataInv D x.s x.f x.u) ?_ ?_
  · rintro _ ⟨env, others, s, hs, halloc, rfl⟩
    obtain ⟨cb, hcb, -, rfl⟩ := slBufferCreate2_eq hs
    exact ⟨.nil D 0 0, fun _ => rfl, rfl, fun _ => rfl, nofun⟩
  intro x a x' hreach hi ha hstep
  have hx := seekInv_of_reach hreach
  have hc := circInv_of_reach hreach
  rcases streamStep_cases hstep with ⟨b, rfl, hb, hu⟩ | ⟨b, rfl, hb, hf⟩
  · rw [hu]; exact fstep_data hx hc hi (hok _ _ ha) hb
  · rw [hf]; exact ustep_data hx hc hi (hok _ _ ha) hb

end Streamlike
