import Mathlib.Algebra.GroupWithZero.Nat
import Streamlike.CircbufSpsc

/-!
# Blocking writes

`circbuf_write` and `circbuf_write2` return only when everything is
written, when reading is closed, or, with a writer, when it came up
short; and no pass of their loops is for nothing.

A history variable `Wrote` beside the two threads records the arguments
of the last call and what had been produced when it began, what the
writer has delivered to it, and whether the writer came up short.
`Account` is the balance of a call at each of its points: the bytes
published since it began and those that wait in their cells are the
first bytes of the caller's memory, or the bytes the writer delivered.
`Room` follows the one argument for progress: what the wait of the loop
has found about `roff` (a free cell, or reading closed) is still true
where the copy routine looks again, since the consumer only frees cells.
-/

namespace Streamlike

variable {α : Type} {c : Nat}

/-! ## What the writer did -/

/-- The producer's last call with its arguments, what had been produced
when it began, the bytes the writer has delivered to it, and whether one
of its calls of the writer came up short. -/
structure Wrote (α : Type) where
  call : Option (PCall α)
  before : List α
  delivered : List α
  short : Bool

/-- Before the first call. -/
def Wrote.fresh : Wrote α := ⟨none, [], [], false⟩

/-- A call begins with nothing delivered; a return of the writer delivers
the first bytes of its region. -/
def Wrote.watch (a : Act α) (x : Sys α) (w : Wrote α) : Wrote α :=
  match a, x.p with
  | .prod (.call r), _ => ⟨some r, x.sh.produced, [], false⟩
  | .prod (.wret n), .writer _ _ _ _ (r :: _) =>
      { w with
        delivered := w.delivered ++ x.sh.cb.data.read r.there n
        short := w.short || decide (n < r.length) }
  | _, _ => w

/-- The two threads and the record. -/
def spscWrote (α : Type) (c : Nat) : Lts (Sys α × Wrote α) (Act α) :=
  (spsc α c).watched .fresh Wrote.watch

/-- The call that a frame is of. -/
def WCall.call (k : WCall α) : PCall α :=
  match k.src, k.blocking with
  | .buf b, true => .write b k.len
  | .buf b, false => .writeSome b k.len
  | .writer, true => .write2 k.len
  | .writer, false => .writeSome2 k.len

theorem WCall.of_write {k : WCall α} {buf : ByteMem α} {len : Nat}
    (h : k.call = .write buf len) : k.src = .buf buf ∧ k.len = len ∧ k.blocking = true := by
  unfold WCall.call at h
  split at h
  · next b hsrc hblock =>
    obtain ⟨rfl, rfl⟩ := PCall.write.inj h
    exact ⟨hsrc, rfl, hblock⟩
  all_goals cases h

theorem WCall.of_write2 {k : WCall α} {len : Nat} (h : k.call = .write2 len) :
    k.src = .writer ∧ k.len = len ∧ k.blocking = true := by
  unfold WCall.call at h
  split at h
  case h_3 hsrc hblock => exact ⟨hsrc, PCall.write2.inj h, hblock⟩
  all_goals cases h

/-- The bytes that a call which returns `n` is to append. -/
def WCall.bytes (k : WCall α) (w : Wrote α) (n : Nat) : List α :=
  match k.src with
  | .buf b => b.read 0 n
  | .writer => w.delivered

/-! ## The balance of a call -/

/-- In a write call: the call, the count it has reached, and the bytes in
their cells that it has not published. -/
def PPc.account : PPc α → Option (WCall α × Nat × List α)
  | .entry k | .loop k | .lockR k | .full1 k | .full2 k _ | .full3 k | .full4 k | .full5 k
  | .wait k | .parked k | .unlockR k | .check k | .someW k | .someR k _ | .copy k _ _ _ =>
      some (k, k.written, [])
  | .writer k _ total got _ => some (k, k.written + total, got)
  | .lockW k _ n got | .storeW k _ n got => some (k, k.written + n, got)
  | .signalW k n | .unlockW k n => some (k, k.written + n, [])
  | .ret k n => some (k, n, [])
  | _ => none

/-- A write call that is about to return, and its count. -/
def PPc.returning : PPc α → Option (WCall α × Nat)
  | .ret k n => some (k, n)
  | _ => none

theorem PPc.eq_ret {p : PPc α} {k : WCall α} {n : Nat} (h : p.returning = some (k, n)) :
    p = .ret k n := by
  cases p with
  | ret k n =>
      obtain ⟨rfl, rfl⟩ := Prod.mk.inj (Option.some.inj h)
      rfl
  | _ => cases h

structure Account (s : Shared α) (w : Wrote α) (k : WCall α) (n : Nat)
    (pending : List α) : Prop where
  appended : s.produced ++ pending = k.pre ++ k.bytes w n
  count : (k.bytes w n).length = n
  le : n ≤ k.len
  eof : k.eof = w.short
  short : w.short = true → k.src = .writer

/-- The loop goes on: something is left to write and the writer has given
all it was asked for. -/
def WCall.Going (k : WCall α) : Prop := k.written < k.len ∧ k.eof = false

/-- What a blocking write knows of its progress. -/
def Room (s : Shared α) : PPc α → Prop
  | .entry k => k.written = 0
  | .lockR k | .full1 k | .full2 k _ | .full3 k | .full5 k | .wait k | .parked k => k.Going
  | .full4 k => k.Going ∧ s.cb.woff + 1 ≠ s.cb.roff
  | .unlockR k | .check k => k.Going ∧ (0 < s.cb.free ∨ s.cb.rdone = true)
  | .someW k | .someR k _ => k.blocking = true → k.Going ∧ 0 < s.cb.free
  | .copy k b m _ =>
      k.blocking = true → k.src = .buf b ∧ 0 < m.ret ∧ k.written + m.ret ≤ k.len
  | .writer k _ total _ todo =>
      k.blocking = true → k.src = .writer ∧ k.eof = false
        ∧ 0 < total + (todo.map (·.length)).sum
        ∧ k.written + (total + (todo.map (·.length)).sum) ≤ k.len
  | .lockW k _ n _ | .storeW k _ n _ => k.blocking = true → 0 < n ∨ k.eof = true
  | .ret k n => k.blocking = true → n < k.len → s.cb.rdone = true ∨ k.eof = true
  | _ => True

/-- The invariant of the blocking writes. -/
structure WriteOk (s : Shared α) (w : Wrote α) (p : PPc α) : Prop where
  /-- The frame has the arguments of the call. -/
  call : ∀ k n pending, p.account = some (k, n, pending) →
    w.call = some k.call ∧ w.before = k.pre
  account : ∀ k n pending, p.account = some (k, n, pending) → k.blocking = true →
    Account s w k n pending
  room : Room s p

/-! ## Room -/

/-- The full test of the wait leaves a free cell. -/
theorem free_pos {cb : Circbuf α} (hwf : cb.Wf) (h₁ : cb.woff + 1 ≠ cb.roff)
    (h₂ : cb.woff + 1 = cb.size → cb.roff ≠ 0) : 0 < cb.free := by
  have hw := hwf.woff_lt
  have hr := hwf.roff_le
  have hlt := ByteRing.used_lt hw hr
  have hfull := mt (full_iff hw hr).mpr (by omega)
  rw [Circbuf.free, circbufGetLength_eq]
  omega

theorem Tiles.sum_length {size off n : Nat} {regions : List Region}
    (h : Tiles size off regions n) : (regions.map (·.length)).sum = n := by
  induction h with
  | nil => rfl
  | cons _ _ ih => rw [List.map_cons, List.sum_cons, ih]

/-! ## The producer's steps -/

/-- A step inside a call that publishes nothing and delivers nothing. -/
theorem WriteOk.move {s s' : Shared α} {w : Wrote α} {p p' : PPc α} (h : WriteOk s w p)
    (hprod : s'.produced = s.produced) (hacc : p'.account = p.account) (hroom : Room s' p') :
    WriteOk s' w p' where
  call := hacc ▸ h.call
  account := by
    intro k n pending hk hblock
    obtain ⟨happ, hcount, hle, heof, hshort⟩ := h.account k n pending (hacc ▸ hk) hblock
    exact ⟨hprod ▸ happ, hcount, hle, heof, hshort⟩
  room := hroom

/-- Outside the write calls. -/
theorem WriteOk.none {s : Shared α} {w : Wrote α} {p : PPc α} (hacc : p.account = none)
    (hroom : Room s p) : WriteOk s w p where
  call := by rw [hacc]; intro k n pending hk; cases hk
  account := by rw [hacc]; intro k n pending hk; cases hk
  room := hroom

theorem pgo_writeOk {s s' : Shared α} {w : Wrote α} {p p' : PPc α} (hr : RingOk c s)
    (hp : ProdOk s p) (hw : WriteOk s w p) (h : pgo s p = some (s', p')) : WriteOk s' w p' := by
  have hat := hp.at_
  have hroom := hw.room
  cases p with
  | idle => cases h
  | entry k =>
      obtain ⟨rfl, rfl⟩ := Prod.mk.inj (Option.some.inj h)
      have hzero : k.written = 0 := hroom
      split
      · next hd => exact hw.move rfl (by simp [PPc.account, hzero]) fun _ _ => .inl hd
      · exact hw.move rfl rfl trivial
  | loop k =>
      obtain ⟨rfl, rfl⟩ := Prod.mk.inj (Option.some.inj h)
      split
      · next hlt =>
        split
        · next hd => exact hw.move rfl rfl fun _ _ => by simpa using hd
        · next hgo => exact hw.move rfl rfl ⟨hlt, by simp_all⟩
      · next hge => exact hw.move rfl rfl fun _ hlt => absurd hlt hge
  | lockR k =>
      obtain ⟨_, h⟩ := Option.ite_none_right_eq_some.mp h
      obtain ⟨rfl, rfl⟩ := Prod.mk.inj (Option.some.inj h)
      exact hw.move rfl rfl hroom
  | full1 k =>
      obtain ⟨rfl, rfl⟩ := Prod.mk.inj (Option.some.inj h)
      exact hw.move rfl rfl hroom
  | full2 k woff =>
      obtain ⟨rfl, rfl⟩ := Prod.mk.inj (Option.some.inj h)
      split <;> exact hw.move rfl rfl hroom
  | full3 k =>
      obtain ⟨rfl, rfl⟩ := Prod.mk.inj (Option.some.inj h)
      split
      · exact hw.move rfl rfl ⟨hroom, hat⟩
      · next hend => exact hw.move rfl rfl ⟨hroom, .inl (free_pos hr.wf hat (absurd · hend))⟩
  | full4 k =>
      obtain ⟨rfl, rfl⟩ := Prod.mk.inj (Option.some.inj h)
      split
      · exact hw.move rfl rfl hroom.1
      · next hzero =>
        exact hw.move rfl rfl ⟨hroom.1, .inl (free_pos hr.wf hroom.2 fun _ => hzero)⟩
  | full5 k =>
      obtain ⟨rfl, rfl⟩ := Prod.mk.inj (Option.some.inj h)
      split
      · next hd => exact hw.move rfl rfl ⟨hroom, .inr hd⟩
      · exact hw.move rfl rfl hroom
  | wait k =>
      obtain ⟨rfl, rfl⟩ := Prod.mk.inj (Option.some.inj h)
      exact hw.move rfl rfl hroom
  | parked k =>
      obtain ⟨_, h⟩ := Option.ite_none_right_eq_some.mp h
      obtain ⟨rfl, rfl⟩ := Prod.mk.inj (Option.some.inj h)
      exact hw.move rfl rfl hroom
  | unlockR k =>
      obtain ⟨rfl, rfl⟩ := Prod.mk.inj (Option.some.inj h)
      exact hw.move rfl rfl hroom
  | check k =>
      obtain ⟨rfl, rfl⟩ := Prod.mk.inj (Option.some.inj h)
      split
      · exact hw.move rfl rfl trivial
      · next hopen => exact hw.move rfl rfl fun _ => ⟨hroom.1, hroom.2.resolve_right hopen⟩
  | someW k =>
      obtain ⟨rfl, rfl⟩ := Prod.mk.inj (Option.some.inj h)
      exact hw.move rfl rfl hroom
  | someR k woff =>
      obtain ⟨rfl, rfl⟩ := Prod.mk.inj (Option.some.inj h)
      obtain rfl : woff = s.cb.woff := hat
      -- the copy routine finds the room that the wait has seen
      split
      · next b hsrc =>
        have hret := (writeSome_moves (n := k.len - k.written) hr.wf.woff_lt hr.wf.roff_le).ret
        refine hw.move rfl rfl fun hblock => ⟨hsrc, ?_⟩
        obtain ⟨⟨hlt, -⟩, hfree⟩ := hroom hblock
        rw [Circbuf.free, circbufGetLength_eq] at hfree
        omega
      · next hsrc =>
        have hsum := (writeSome2_calls_tiles (n := k.len - k.written) hr.wf.woff_lt
          hr.wf.roff_le).sum_length
        refine hw.move rfl rfl fun hblock => ?_
        obtain ⟨⟨hlt, heof⟩, hfree⟩ := hroom hblock
        rw [Circbuf.free, circbufGetLength_eq] at hfree
        exact ⟨hsrc, heof, by omega, by omega⟩
  | copy k b m todo =>
      cases todo with
      | cons x todo =>
          obtain ⟨cell, j⟩ := x
          obtain ⟨rfl, rfl⟩ := Prod.mk.inj (Option.some.inj h)
          exact hw.move rfl rfl hroom
      | nil =>
          obtain ⟨rfl, rfl⟩ := Prod.mk.inj (Option.some.inj h)
          refine ⟨?_, ?_, fun hblock => .inl (hroom hblock).2.1⟩
          · rintro _ _ _ ⟨⟩
            exact hw.call k _ _ rfl
          rintro _ _ _ ⟨⟩ hblock
          obtain ⟨hsrc, -, hle⟩ := hroom hblock
          obtain ⟨happ, -, -, heof, hshort⟩ := hw.account k _ _ rfl hblock
          refine ⟨?_, by simp [WCall.bytes, hsrc], hle, heof, hshort⟩
          simp only [WCall.bytes, hsrc, List.append_nil] at happ ⊢
          rw [happ, ByteMem.read_add, Nat.zero_add, List.append_assoc]
  | writer k woff total got todo =>
      cases todo with
      | cons r todo => cases h
      | nil =>
          obtain ⟨rfl, rfl⟩ := Prod.mk.inj (Option.some.inj h)
          exact hw.move rfl rfl fun hblock => .inl (hroom hblock).2.2.1
  | lockW k woff n got =>
      obtain ⟨_, h⟩ := Option.ite_none_right_eq_some.mp h
      obtain ⟨rfl, rfl⟩ := Prod.mk.inj (Option.some.inj h)
      exact hw.move rfl rfl hroom
  | storeW k woff n got =>
      obtain ⟨rfl, rfl⟩ := Prod.mk.inj (Option.some.inj h)
      refine ⟨?_, ?_, trivial⟩
      · rintro _ _ _ ⟨⟩
        exact hw.call k _ _ rfl
      rintro _ _ _ ⟨⟩ hblock
      obtain ⟨happ, hcount, hle, heof, hshort⟩ := hw.account k _ _ rfl hblock
      exact ⟨(List.append_nil _).trans happ, hcount, hle, heof, hshort⟩
  | signalW k n =>
      obtain ⟨rfl, rfl⟩ := Prod.mk.inj (Option.some.inj h)
      exact hw.move rfl rfl trivial
  | unlockW k n =>
      obtain ⟨rfl, rfl⟩ := Prod.mk.inj (Option.some.inj h)
      split
      · refine ⟨?_, ?_, trivial⟩
        · rintro _ _ _ ⟨⟩
          exact hw.call k _ _ rfl
        rintro _ _ _ ⟨⟩ hblock
        obtain ⟨happ, hcount, hle, heof, hshort⟩ := hw.account k _ _ rfl hblock
        exact ⟨happ, hcount, hle, heof, hshort⟩
      · next hsome =>
        refine ⟨?_, ?_, fun hblock => absurd hblock hsome⟩
        · rintro _ _ _ ⟨⟩
          exact hw.call k _ _ rfl
        rintro _ _ _ ⟨⟩ hblock
        exact absurd hblock hsome
  | ret k n | closed code =>
      obtain ⟨rfl, rfl⟩ := Prod.mk.inj (Option.some.inj h)
      exact .none rfl trivial
  | close =>
      obtain ⟨rfl, rfl⟩ := Prod.mk.inj (Option.some.inj h)
      split <;> exact .none rfl trivial
  | closeLock =>
      obtain ⟨_, h⟩ := Option.ite_none_right_eq_some.mp h
      obtain ⟨rfl, rfl⟩ := Prod.mk.inj (Option.some.inj h)
      exact .none rfl trivial
  | closeStore | closeSignal | closeUnlock =>
      obtain ⟨rfl, rfl⟩ := Prod.mk.inj (Option.some.inj h)
      exact .none rfl trivial

theorem pstep_writeOk {a : PAct α} {s s' : Shared α} {w : Wrote α} {p p' : PPc α} {q : CPc α}
    (hr : RingOk c s) (hp : ProdOk s p) (hw : WriteOk s w p)
    (h : pstep a s p = some (s', p')) : WriteOk s' (w.watch (.prod a) ⟨s, p, q⟩) p' := by
  cases pstep_cases h with
  | go h => exact pgo_writeOk hr hp hw h
  | call r =>
      cases r with
      | write buf n =>
          refine ⟨?_, ?_, rfl⟩
          · rintro _ _ _ ⟨⟩
            exact ⟨rfl, rfl⟩
          rintro _ _ _ ⟨⟩ -
          exact ⟨rfl, rfl, Nat.zero_le _, rfl, by simp [Wrote.watch]⟩
      | write2 n =>
          refine ⟨?_, ?_, rfl⟩
          · rintro _ _ _ ⟨⟩
            exact ⟨rfl, rfl⟩
          rintro _ _ _ ⟨⟩ -
          exact ⟨rfl, rfl, Nat.zero_le _, rfl, fun _ => rfl⟩
      | writeSome buf n | writeSome2 n =>
          refine ⟨?_, ?_, fun hblock => by cases hblock⟩
          · rintro _ _ _ ⟨⟩
            exact ⟨rfl, rfl⟩
          rintro _ _ _ ⟨⟩ hblock
          cases hblock
      | closeWrite => exact .none rfl trivial
  | store b hi => exact hw.move rfl rfl hw.room
  | @wret k woff total n got r todo hn =>
      have hroom := hw.room
      have hcall := hw.call k _ _ rfl
      -- the bytes of this return, delivered and not yet published
      have hdelivered : k.blocking = true → ∀ e, e = (w.short || decide (n < r.length)) →
          Account s (w.watch (.prod (.wret n)) ⟨s, .writer k woff total got (r :: todo), q⟩)
            { k with eof := e } (k.written + (total + n))
            (got ++ s.cb.data.read r.there n) := by
        rintro hblock e rfl
        obtain ⟨hsrc, -, -, hle⟩ := hroom hblock
        obtain ⟨happ, hcount, -, -, -⟩ := hw.account k _ _ rfl hblock
        simp only [WCall.bytes, hsrc, List.map_cons, List.sum_cons] at happ hcount hle
        refine ⟨?_, ?_, by dsimp only; omega, rfl, fun _ => hsrc⟩
        · simp only [WCall.bytes, hsrc, Wrote.watch]
          rw [← List.append_assoc, happ, List.append_assoc]
        · simp only [WCall.bytes, hsrc, Wrote.watch, List.length_append, ByteMem.length_read,
            hcount, Nat.add_assoc]
      split
      · next hshort =>
        refine ⟨?_, ?_, fun _ => .inr rfl⟩
        · rintro _ _ _ ⟨⟩
          exact hcall
        rintro _ _ _ ⟨⟩ hblock
        exact hdelivered hblock true (by simp [hshort])
      · next hfull =>
        obtain rfl : n = r.length := by omega
        refine ⟨?_, ?_, fun hblock => ?_⟩
        · rintro _ _ _ ⟨⟩
          exact hcall
        · rintro _ _ _ ⟨⟩ hblock
          have heof := (hw.account k _ _ rfl hblock).eof
          exact hdelivered hblock k.eof (by simp [heof])
        · obtain ⟨hsrc, heof, hpos, hle⟩ := hroom hblock
          simp only [List.map_cons, List.sum_cons] at hpos hle
          exact ⟨hsrc, heof, by omega, by omega⟩
  | spurious hparked => exact hw.move rfl rfl hw.room

/-- The producer's progress, under a step of the consumer. -/
theorem Room.stable {s s' : Shared α} {p : PPc α} (hp : ProdOk s p) (hroom : Room s p)
    (hf : ConsFrame s s') (hd : s.cb.rdone = true → s'.cb.rdone = true) : Room s' p := by
  have hfree := hf.free_le
  cases p with
  | full4 k =>
      refine ⟨hroom.1, ?_⟩
      rw [hf.woff, (hf.roff (hp.rlock.mpr rfl)).1]
      exact hroom.2
  | unlockR k | check k => exact ⟨hroom.1, hroom.2.imp (·.trans_le hfree) hd⟩
  | someW k | someR k woff => exact fun hblock => (hroom hblock).imp_right (·.trans_le hfree)
  | ret k n => exact fun hblock hlt => (hroom hblock hlt).imp_left hd
  | _ => exact hroom

/-! ## Runs -/

theorem writeOk_of_reach {x : Sys α} {w : Wrote α}
    (h : (spscWrote α c).Reach Lts.Any (x, w)) : WriteOk x.sh w x.p := by
  refine h.invariant (I := fun y => WriteOk y.1.sh y.2 y.1.p) ?_ ?_
  · rintro ⟨_, _⟩ ⟨⟨env, cb, -, -, rfl⟩, -⟩
    exact .none rfl trivial
  rintro ⟨s, w⟩ a ⟨s', w'⟩ hreach hw - hstep
  obtain ⟨_, hs, heq⟩ := Option.map_eq_some_iff.mp hstep
  obtain ⟨rfl, rfl⟩ := Prod.mk.inj heq
  have hplain : (spsc α c).Reach Lts.Any s := Lts.Reach.forget (x := (s, w)) hreach
  have hinv : Inv c s := inv_of_reach hplain
  rcases sysStep_cases hs with ⟨b, rfl, hb, -⟩ | ⟨b, rfl, hb, hp⟩
  · exact pstep_writeOk hinv.ring hinv.prod hw hb
  · have hframe := (cstep_ok hinv.ring hinv.cons hb).frame
    dsimp only
    rw [hp]
    exact hw.move hframe.produced rfl
      (hw.room.stable hinv.prod hframe fun hd => cstep_rdone hb hd)

/-- What a blocking write promises: `circbuf_write(buf, len)` and
`circbuf_write2(writer, len)` at their return of `n`, the latter at its
calls of the writer, and both at the publish of each pass. -/
structure Sys.BlockingWrites (x : Sys α) (w : Wrote α) : Prop where
  /-- The first `n` bytes of the caller's memory have been appended. -/
  write : ∀ buf len k n, w.call = some (.write buf len) → x.p = .ret k n →
    x.sh.produced = w.before ++ buf.read 0 n ∧ n ≤ len ∧ (n < len → x.sh.cb.rdone = true)
  /-- The `n` bytes that the writer delivered have been appended. -/
  write2 : ∀ len k n, w.call = some (.write2 len) → x.p = .ret k n →
    x.sh.produced = w.before ++ w.delivered ∧ w.delivered.length = n ∧ n ≤ len
      ∧ (n < len → x.sh.cb.rdone = true ∨ w.short = true)
  /-- The writer is called only while it has given all it was asked for. -/
  notAgain : ∀ len k woff total got r todo, w.call = some (.write2 len) →
    x.p = .writer k woff total got (r :: todo) → w.short = false
  progress : ∀ buf len k woff n got, w.call = some (.write buf len) →
    x.p = .storeW k woff n got → got.length = n ∧ 0 < n
  progress2 : ∀ len k woff n got, w.call = some (.write2 len) →
    x.p = .storeW k woff n got → got.length = n ∧ (0 < n ∨ w.short = true)

/-- The frame of a `circbuf_write` and its balance. -/
theorem WriteOk.of_write {s : Shared α} {w : Wrote α} {p : PPc α} {buf : ByteMem α}
    {k : WCall α} {len n : Nat} {pending : List α} (hw : WriteOk s w p)
    (hcall : w.call = some (.write buf len)) (hp : p.account = some (k, n, pending)) :
    k.blocking = true ∧ k.len = len ∧ k.eof = false ∧ n ≤ len
      ∧ s.produced ++ pending = w.before ++ buf.read 0 n := by
  obtain ⟨hk, hbefore⟩ := hw.call _ _ _ hp
  obtain ⟨hsrc, rfl, hblock⟩ := WCall.of_write (Option.some.inj (hk.symm.trans hcall))
  obtain ⟨happ, -, hle, heof, hshort⟩ := hw.account _ _ _ hp hblock
  refine ⟨hblock, rfl, ?_, hle, ?_⟩
  · refine Bool.eq_false_iff.mpr fun h => ?_
    rw [hshort (heof ▸ h)] at hsrc
    cases hsrc
  · rw [happ, hbefore, WCall.bytes, hsrc]

/-- The frame of a `circbuf_write2` and its balance. -/
theorem WriteOk.of_write2 {s : Shared α} {w : Wrote α} {p : PPc α} {k : WCall α} {len n : Nat}
    {pending : List α} (hw : WriteOk s w p) (hcall : w.call = some (.write2 len))
    (hp : p.account = some (k, n, pending)) :
    k.blocking = true ∧ k.len = len ∧ k.eof = w.short ∧ n ≤ len
      ∧ s.produced ++ pending = w.before ++ w.delivered ∧ w.delivered.length = n := by
  obtain ⟨hk, hbefore⟩ := hw.call _ _ _ hp
  obtain ⟨hsrc, rfl, hblock⟩ := WCall.of_write2 (Option.some.inj (hk.symm.trans hcall))
  obtain ⟨happ, hcount, hle, heof, -⟩ := hw.account _ _ _ hp hblock
  rw [WCall.bytes, hsrc] at happ hcount
  exact ⟨hblock, rfl, heof, hle, hbefore ▸ happ, hcount⟩

/-- **Blocking writes are complete or explained, and always progress**, in
every state of every interleaving with the consumer, for the arguments
with which the call was made. The record of the calls and of the writer is
one for every run. -/
theorem blocking_writes (c : Nat) :
    (∀ x : Sys α, (spsc α c).Reach Lts.Any x →
        ∃ w, (spscWrote α c).Reach Lts.Any (x, w))
      ∧ ∀ (x : Sys α) (w : Wrote α), (spscWrote α c).Reach Lts.Any (x, w) →
        x.BlockingWrites w ∧ x.sh.produced = x.sh.released ++ x.sh.cb.unread := by
  refine ⟨fun x h => h.watched, fun x w h => ?_⟩
  have hplain : (spsc α c).Reach Lts.Any x := Lts.Reach.forget (x := (x, w)) h
  have hinv : Inv c x := inv_of_reach hplain
  have hw := writeOk_of_reach h
  have hroom := hw.room
  have hat := hinv.prod.at_
  refine ⟨⟨?_, ?_, ?_, ?_, ?_⟩, hinv.ring.history⟩
  · intro buf len k n hcall hp
    rw [hp] at hroom
    obtain ⟨hblock, rfl, heof, hle, happ⟩ := hw.of_write hcall (k := k) (by rw [hp]; rfl)
    refine ⟨(List.append_nil _).symm.trans happ, hle, fun hlt => ?_⟩
    exact (hroom hblock hlt).resolve_right (by simp [heof])
  · intro len k n hcall hp
    rw [hp] at hroom
    obtain ⟨hblock, rfl, heof, hle, happ, hcount⟩ :=
      hw.of_write2 hcall (k := k) (by rw [hp]; rfl)
    refine ⟨(List.append_nil _).symm.trans happ, hcount, hle, fun hlt => ?_⟩
    exact heof ▸ hroom hblock hlt
  · intro len k woff total got r todo hcall hp
    rw [hp] at hroom
    obtain ⟨hblock, -, heof, -⟩ := hw.of_write2 hcall (k := k) (by rw [hp]; rfl)
    exact heof ▸ (hroom hblock).2.1
  · intro buf len k woff n got hcall hp
    rw [hp] at hroom hat
    obtain ⟨hblock, -, heof, -⟩ := hw.of_write hcall (k := k) (by rw [hp]; rfl)
    exact ⟨hat.2.2.1, (hroom hblock).resolve_right (by simp [heof])⟩
  · intro len k woff n got hcall hp
    rw [hp] at hroom hat
    obtain ⟨hblock, -, heof, -⟩ := hw.of_write2 hcall (k := k) (by rw [hp]; rfl)
    exact ⟨hat.2.2.1, heof ▸ hroom hblock⟩

/-- Two runs on a buffer of one byte. A `circbuf_write` of the bytes 5, 6:
it appends 5 and waits, the consumer disposes of it and closes reading.
A `circbuf_write2` of two bytes: the writer gives one byte, the consumer
disposes of it, and the writer comes up short. -/
theorem blocking_writes_run :
    (∃ (x : Sys Nat) (w : Wrote Nat) (buf : ByteMem Nat) (k : WCall Nat),
        w.call = some (.write buf 2) ∧ x.p = .ret k 1 ∧ x.BlockingWrites w
        ∧ buf.read 0 2 = [5, 6] ∧ x.sh.produced = [5] ∧ x.sh.cb.rdone = true)
      ∧ ∃ (x : Sys Nat) (w : Wrote Nat) (k : WCall Nat),
        w.call = some (.write2 2) ∧ x.p = .ret k 1 ∧ x.BlockingWrites w
        ∧ x.sh.produced = [9] ∧ x.sh.cb.rdone = false := by
  let fresh : Sys Nat × Wrote Nat :=
    (⟨.fresh ⟨fun _ => 0, 2, 0, 0, false, false⟩, .idle, .idle⟩, .fresh)
  have hinit : (spscWrote Nat 1).Reach Lts.Any fresh :=
    .init ⟨⟨.ample 0, _, rfl, by decide, rfl⟩, rfl⟩
  -- the length and what is to be written, the count, the bytes appended, reading closed
  let wrote (y : Sys Nat × Wrote Nat) : Option (Nat × List Nat × Nat × List Nat × Bool) :=
    y.2.call.bind fun call => y.1.p.returning.bind fun ret =>
      match call with
      | .write buf len => some (len, buf.read 0 len, ret.2, y.1.sh.produced, y.1.sh.cb.rdone)
      | .write2 len => some (len, [], ret.2, y.1.sh.produced, y.1.sh.cb.rdone)
      | _ => none
  refine ⟨?_, ?_⟩
  · let acts : List (Act Nat) := .prod (.call (.write (· + 5) 2)) :: List.replicate 24 (.prod .go)
      ++ .cons (.call (.disposeSome 1)) :: List.replicate 8 (.cons .go)
      ++ .cons (.call .closeRead) :: List.replicate 5 (.cons .go) ++ List.replicate 8 (.prod .go)
    have hrun : ((spscWrote Nat 1).run acts fresh).bind wrote = some (2, [5, 6], 1, [5], true) := by
      decide +kernel
    obtain ⟨⟨x, w⟩, hacts, hwrote⟩ := Option.bind_eq_some_iff.mp hrun
    have hreach : (spscWrote Nat 1).Reach Lts.Any (x, w) :=
      .run (fun _ _ _ => trivial) hinit hacts
    have hok := ((blocking_writes 1).2 x w hreach).1
    obtain ⟨call, hcall, hwrote⟩ := Option.bind_eq_some_iff.mp hwrote
    obtain ⟨⟨k, n⟩, hp, hwrote⟩ := Option.bind_eq_some_iff.mp hwrote
    have hp := PPc.eq_ret hp
    cases call with
    | write buf len =>
        simp only [Option.some.injEq, Prod.mk.injEq] at hwrote
        obtain ⟨rfl, hasked, rfl, hprod, hclosed⟩ := hwrote
        exact ⟨x, w, buf, k, hcall, hp, hok, hasked, hprod, hclosed⟩
    | write2 len => simp at hwrote
    | _ => cases hwrote
  · let pass : List (Act Nat) := List.replicate 9 (.prod .go)
    let acts : List (Act Nat) := .prod (.call (.write2 2)) :: .prod .go :: pass
      ++ .prod (.store 0 9) :: .prod (.wret 1) :: List.replicate 5 (.prod .go)
      ++ .cons (.call (.disposeSome 1)) :: List.replicate 7 (.cons .go)
      ++ .prod .go :: pass ++ .prod (.wret 0) :: List.replicate 5 (.prod .go)
    have hrun : ((spscWrote Nat 1).run acts fresh).bind wrote = some (2, [], 1, [9], false) := by
      decide +kernel
    obtain ⟨⟨x, w⟩, hacts, hwrote⟩ := Option.bind_eq_some_iff.mp hrun
    have hreach : (spscWrote Nat 1).Reach Lts.Any (x, w) :=
      .run (fun _ _ _ => trivial) hinit hacts
    have hok := ((blocking_writes 1).2 x w hreach).1
    obtain ⟨call, hcall, hwrote⟩ := Option.bind_eq_some_iff.mp hwrote
    obtain ⟨⟨k, n⟩, hp, hwrote⟩ := Option.bind_eq_some_iff.mp hwrote
    have hp := PPc.eq_ret hp
    cases call with
    | write buf len =>
        simp only [Option.some.injEq, Prod.mk.injEq] at hwrote
        obtain ⟨rfl, hnone, -⟩ := hwrote
        cases hnone
    | write2 len =>
        simp only [Option.some.injEq, Prod.mk.injEq, true_and] at hwrote
        obtain ⟨rfl, rfl, hprod, hopen⟩ := hwrote
        exact ⟨x, w, k, hcall, hp, hok, hprod, hopen⟩
    | _ => cases hwrote

end Streamlike
