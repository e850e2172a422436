import Streamlike.Circbuf
import Streamlike.Lts

/-!
# The circular buffer under two threads

One producer and one consumer on one buffer. A step is one load of
`roff`, `woff`, `rdone` or `wdone`, one copied byte, one store, or one
operation on a lock or a condition variable; the two threads interleave
freely (sequential consistency).

Each thread is a program point with the local variables that are live
there. `pgo` and `cgo` are the tables of the two programs, one line for
each point, in the order of `circbuf.c`; the steps that are not
determined by the state (which call comes next, what a writer stores and
returns, a spurious wake-up) are actions of their own.

A condition variable is shown from the side of the only thread that
waits on it. `pthread_cond_wait` releases the lock and parks; a signal
turns `parked` into `woken`; a woken thread takes the lock and goes on.

Three history variables record what the calls did and influence nothing:
`produced`, extended when `woff` is published; `released`, extended when
`roff` is; and `view`, the bytes that `circbuf_input_some` pointed at and
that have not been released since.
-/

namespace Streamlike

variable {α : Type}

inductive Tid where
  | producer
  | consumer
deriving Repr, DecidableEq

/-- The state of the thread that waits on a condition variable. -/
inductive Wait where
  | out
  | parked
  | woken
deriving Repr, DecidableEq

/-- `pthread_cond_signal`. -/
def Wait.signal : Wait → Wait
  | .parked => .woken
  | w => w

/-- A signal wakes, it does not park or unpark. -/
theorem Wait.signal_eq_out (w : Wait) : w.signal = .out ↔ w = .out := by
  cases w <;> simp [Wait.signal]

theorem Wait.signal_ne_parked (w : Wait) : w.signal ≠ .parked := by
  cases w <;> simp [Wait.signal]

theorem Wait.eq_parked {w : Wait} (hout : w ≠ .out) (hwoken : w ≠ .woken) : w = .parked := by
  cases w <;> first | rfl | contradiction

/-- `struct circbuf_s` with its locks, and the history variables. -/
structure Shared (α : Type) where
  cb : Circbuf α
  wlock : Option Tid
  wcond : Wait
  rlock : Option Tid
  rcond : Wait
  produced : List α
  released : List α
  view : Option (Nat × List α)

/-- A fresh buffer, nobody in a call. -/
def Shared.fresh (cb : Circbuf α) : Shared α :=
  { cb, wlock := none, wcond := .out, rlock := none, rcond := .out,
    produced := [], released := [], view := none }

/-- A byte stored into a cell. -/
def Shared.store (s : Shared α) (cell : Nat) (b : α) : Shared α :=
  { s with cb := { s.cb with data := s.cb.data.set cell b } }

/-! ## The producer -/

/-- Where the bytes of a write come from: the caller's memory
(`circbuf_write_some`, `circbuf_write`) or a writer (`circbuf_write_some2`,
`circbuf_write2`). -/
inductive Src (α : Type) where
  | buf (b : ByteMem α)
  | writer

/-- The arguments and locals of a write call. `pre` records what had been
produced when the call began. -/
structure WCall (α : Type) where
  src : Src α
  len : Nat
  blocking : Bool
  written : Nat
  eof : Bool
  pre : List α

/-- The calls a producer makes. -/
inductive PCall (α : Type) where
  | writeSome (buf : ByteMem α) (n : Nat)
  | writeSome2 (n : Nat)
  | write (buf : ByteMem α) (n : Nat)
  | write2 (n : Nat)
  | closeWrite

/-- Program points of the producer. -/
inductive PPc (α : Type) where
  | idle
  -- circbuf_write, circbuf_write2
  | entry (k : WCall α)
  | loop (k : WCall α)
  | lockR (k : WCall α)
  | full1 (k : WCall α)
  | full2 (k : WCall α) (woff : Nat)
  | full3 (k : WCall α)
  | full4 (k : WCall α)
  | full5 (k : WCall α)
  | wait (k : WCall α)
  | parked (k : WCall α)
  | unlockR (k : WCall α)
  | check (k : WCall α)
  -- circbuf_write_some, circbuf_write_some2
  | someW (k : WCall α)
  | someR (k : WCall α) (woff : Nat)
  | copy (k : WCall α) (b : ByteMem α) (m : Moved) (todo : List (Nat × Nat))
  | writer (k : WCall α) (woff total : Nat) (got : List α) (todo : List Region)
  | lockW (k : WCall α) (woff n : Nat) (got : List α)
  | storeW (k : WCall α) (woff n : Nat) (got : List α)
  | signalW (k : WCall α) (n : Nat)
  | unlockW (k : WCall α) (n : Nat)
  | ret (k : WCall α) (n : Nat)
  -- circbuf_close_write
  | close
  | closeLock
  | closeStore
  | closeSignal
  | closeUnlock
  | closed (code : Int)

/-- The first point of a call. -/
def PCall.start (s : Shared α) : PCall α → PPc α
  | .writeSome buf n => .someW ⟨.buf buf, n, false, 0, false, s.produced⟩
  | .writeSome2 n => .someW ⟨.writer, n, false, 0, false, s.produced⟩
  | .write buf n => .entry ⟨.buf buf, n, true, 0, false, s.produced⟩
  | .write2 n => .entry ⟨.writer, n, true, 0, false, s.produced⟩
  | .closeWrite => .close

/-- One step of the producer's program. -/
def pgo (s : Shared α) : PPc α → Option (Shared α × PPc α)
  | .idle => none
  | .entry k => some (s, if s.cb.rdone then .ret k 0 else .loop k)
  | .loop k =>
      some (s, if k.written < k.len then
        if s.cb.rdone || k.eof then .ret k k.written else .lockR k
      else .ret k k.written)
  | .lockR k =>
      if s.rlock = none then some ({ s with rlock := some .producer }, .full1 k) else none
  -- while ((woff + 1 == roff || (woff + 1 == size && roff == 0)) && !rdone)
  | .full1 k => some (s, .full2 k s.cb.woff)
  | .full2 k woff => some (s, if woff + 1 = s.cb.roff then .full5 k else .full3 k)
  | .full3 k => some (s, if s.cb.woff + 1 = s.cb.size then .full4 k else .unlockR k)
  | .full4 k => some (s, if s.cb.roff = 0 then .full5 k else .unlockR k)
  | .full5 k => some (s, if s.cb.rdone then .unlockR k else .wait k)
  | .wait k => some ({ s with rlock := none, rcond := .parked }, .parked k)
  | .parked k =>
      if s.rcond = .woken ∧ s.rlock = none then
        some ({ s with rlock := some .producer, rcond := .out }, .full1 k)
      else none
  | .unlockR k => some ({ s with rlock := none }, .check k)
  | .check k => some (s, if s.cb.rdone then .loop k else .someW k)
  | .someW k => some (s, .someR k s.cb.woff)
  | .someR k woff =>
      some (s, match k.src with
        | .buf b =>
            let m := writeSome_ s.cb.size (k.len - k.written) s.cb.roff woff
            .copy k b m m.cells
        | .writer =>
            .writer k woff 0 []
              (writeSome2_calls s.cb.size (k.len - k.written) s.cb.roff woff))
  | .copy k b m ((cell, j) :: todo) =>
      some (s.store cell (b (k.written + j)), .copy k b m todo)
  | .copy k b m [] => some (s, .lockW k m.off m.ret (b.read k.written m.ret))
  -- the writer has been called for every region
  | .writer k woff total got [] => some (s, .lockW k woff total got)
  | .writer _ _ _ _ (_ :: _) => none
  | .lockW k woff n got =>
      if s.wlock = none then
        some ({ s with wlock := some .producer }, .storeW k woff n got)
      else none
  | .storeW k woff n got =>
      some ({ s with cb := { s.cb with woff }, produced := s.produced ++ got }, .signalW k n)
  | .signalW k n => some ({ s with wcond := s.wcond.signal }, .unlockW k n)
  | .unlockW k n =>
      some ({ s with wlock := none },
        if k.blocking then .loop { k with written := k.written + n } else .ret k n)
  | .ret _ _ => some (s, .idle)
  | .close => some (s, if s.cb.wdone then .closed (-1) else .closeLock)
  | .closeLock =>
      if s.wlock = none then some ({ s with wlock := some .producer }, .closeStore) else none
  | .closeStore => some ({ s with cb := { s.cb with wdone := true } }, .closeSignal)
  | .closeSignal => some ({ s with wcond := s.wcond.signal }, .closeUnlock)
  | .closeUnlock => some ({ s with wlock := none }, .closed 0)
  | .closed _ => some (s, .idle)

/-- Actions of the producer: begin a call, the next step of the program,
a byte stored by the writer at an index of its region, the writer's
return, a spurious wake-up. -/
inductive PAct (α : Type) where
  | call (r : PCall α)
  | go
  | store (i : Nat) (b : α)
  | wret (n : Nat)
  | spurious

def pstep (a : PAct α) (s : Shared α) (p : PPc α) : Option (Shared α × PPc α) :=
  match a with
  | .go => pgo s p
  | .call r =>
      match p with
      | .idle => some (s, r.start s)
      | _ => none
  | .store i b =>
      match p with
      | .writer k woff total got (r :: todo) =>
          if i < r.length then
            some (s.store (r.there + i) b, .writer k woff total got (r :: todo))
          else none
      | _ => none
  | .wret n =>
      match p with
      | .writer k woff total got (r :: todo) =>
          if n ≤ r.length then
            let woff := (woff + n) % s.cb.size
            let got := got ++ s.cb.data.read r.there n
            some (s, if n < r.length then .lockW { k with eof := true } woff (total + n) got
              else .writer k woff (total + n) got todo)
          else none
      | _ => none
  | .spurious =>
      match p with
      | .parked k =>
          if s.rcond = .parked then some ({ s with rcond := .woken }, .parked k) else none
      | _ => none

/-- What a step of the producer is. -/
inductive PStep (s : Shared α) : PAct α → PPc α → Shared α → PPc α → Prop
  | go {s' : Shared α} {p p' : PPc α} : pgo s p = some (s', p') → PStep s .go p s' p'
  | call (r : PCall α) : PStep s (.call r) .idle s (r.start s)
  | store {k : WCall α} {woff total i : Nat} {got : List α} {r : Region} {todo : List Region}
      (b : α) : i < r.length →
      PStep s (.store i b) (.writer k woff total got (r :: todo)) (s.store (r.there + i) b)
        (.writer k woff total got (r :: todo))
  | wret {k : WCall α} {woff total n : Nat} {got : List α} {r : Region} {todo : List Region} :
      n ≤ r.length →
      PStep s (.wret n) (.writer k woff total got (r :: todo)) s
        (if n < r.length then
          .lockW { k with eof := true } ((woff + n) % s.cb.size) (total + n)
            (got ++ s.cb.data.read r.there n)
        else
          .writer k ((woff + n) % s.cb.size) (total + n) (got ++ s.cb.data.read r.there n) todo)
  | spurious {k : WCall α} : s.rcond = .parked →
      PStep s .spurious (.parked k) { s with rcond := .woken } (.parked k)

theorem pstep_cases {a : PAct α} {s s' : Shared α} {p p' : PPc α}
    (h : pstep a s p = some (s', p')) : PStep s a p s' p' := by
  cases a with
  | go => exact .go h
  | call r =>
      cases p with
      | idle =>
          obtain ⟨rfl, rfl⟩ := Prod.mk.inj (Option.some.inj h)
          exact .call r
      | _ => cases h
  | store i b =>
      cases p with
      | writer k woff total got todo =>
          cases todo with
          | nil => cases h
          | cons r todo =>
              obtain ⟨hi, h⟩ := Option.ite_none_right_eq_some.mp h
              obtain ⟨rfl, rfl⟩ := Prod.mk.inj (Option.some.inj h)
              exact .store b hi
      | _ => cases h
  | wret n =>
      cases p with
      | writer k woff total got todo =>
          cases todo with
          | nil => cases h
          | cons r todo =>
              obtain ⟨hn, h⟩ := Option.ite_none_right_eq_some.mp h
              obtain ⟨rfl, rfl⟩ := Prod.mk.inj (Option.some.inj h)
              exact .wret hn
      | _ => cases h
  | spurious =>
      cases p with
      | parked k =>
          obtain ⟨hparked, h⟩ := Option.ite_none_right_eq_some.mp h
          obtain ⟨rfl, rfl⟩ := Prod.mk.inj (Option.some.inj h)
          exact .spurious hparked
      | _ => cases h

/-! ## The consumer -/

/-- The arguments and locals of a read call. `pre` records what had been
released when the call began. -/
structure RCall (α : Type) where
  buf : ByteMem α
  len : Nat
  blocking : Bool
  read : Nat
  pre : List α

/-- What a publish of `roff` completes. -/
inductive Done (α : Type) where
  | read (k : RCall α) (n : Nat)
  | dispose (n : Nat)

/-- The calls a consumer makes. -/
inductive CCall (α : Type) where
  | readSome (buf : ByteMem α) (n : Nat)
  | read (buf : ByteMem α) (n : Nat)
  | inputSome (n : Nat)
  | disposeSome (n : Nat)
  | closeRead

/-- Program points of the consumer. -/
inductive CPc (α : Type) where
  | idle
  -- circbuf_read
  | loop (k : RCall α)
  | loopW (k : RCall α) (roff : Nat)
  | loopD (k : RCall α)
  | lockW (k : RCall α)
  | empty1 (k : RCall α)
  | empty2 (k : RCall α) (roff : Nat)
  | empty3 (k : RCall α)
  | wait (k : RCall α)
  | parked (k : RCall α)
  | unlockW (k : RCall α)
  -- circbuf_read_some
  | someR (k : RCall α)
  | someW (k : RCall α) (roff : Nat)
  | copy (k : RCall α) (m : Moved) (todo : List (Nat × Nat))
  -- circbuf_dispose_some
  | len1 (n : Nat)
  | len2 (n roff : Nat)
  | off (n : Nat)
  -- the publish of circbuf_read_some and circbuf_dispose_some
  | lockR (d : Done α) (roff : Nat)
  | storeR (d : Done α) (roff : Nat)
  | signalR (d : Done α)
  | unlockR (d : Done α)
  | ret (k : RCall α)
  | disposed (n : Nat)
  -- circbuf_input_some
  | input1 (n : Nat)
  | input2 (n roff : Nat)
  | input (cell n : Nat)
  -- circbuf_close_read
  | close
  | closeLock
  | closeStore
  | closeSignal
  | closeUnlock
  | closed (code : Int)

def CCall.start (s : Shared α) : CCall α → CPc α
  | .readSome buf n => .someR ⟨buf, n, false, 0, s.released⟩
  | .read buf n => .loop ⟨buf, n, true, 0, s.released⟩
  | .inputSome n => .input1 n
  | .disposeSome n => .len1 n
  | .closeRead => .close

/-- The bytes released by the publish: those copied into the caller's
memory, or those in the cells that are passed over. -/
def Done.bytes (s : Shared α) : Done α → List α
  | .read k n => k.buf.read k.read n
  | .dispose n => ByteRing.window s.cb.data s.cb.size s.cb.roff n

/-- One step of the consumer's program. -/
def cgo (s : Shared α) : CPc α → Option (Shared α × CPc α)
  | .idle => none
  -- while (read < buf_len && (roff != woff || !wdone))
  | .loop k => some (s, if k.read < k.len then .loopW k s.cb.roff else .ret k)
  | .loopW k roff => some (s, if roff ≠ s.cb.woff then .lockW k else .loopD k)
  | .loopD k => some (s, if s.cb.wdone then .ret k else .lockW k)
  | .lockW k =>
      if s.wlock = none then some ({ s with wlock := some .consumer }, .empty1 k) else none
  -- while (roff == woff && !wdone)
  | .empty1 k => some (s, .empty2 k s.cb.roff)
  | .empty2 k roff => some (s, if roff = s.cb.woff then .empty3 k else .unlockW k)
  | .empty3 k => some (s, if s.cb.wdone then .unlockW k else .wait k)
  | .wait k => some ({ s with wlock := none, wcond := .parked }, .parked k)
  | .parked k =>
      if s.wcond = .woken ∧ s.wlock = none then
        some ({ s with wlock := some .consumer, wcond := .out }, .empty1 k)
      else none
  | .unlockW k => some ({ s with wlock := none }, .someR k)
  | .someR k => some (s, .someW k s.cb.roff)
  | .someW k roff =>
      let m := readSome_ s.cb.size (k.len - k.read) roff s.cb.woff
      some (s, .copy k m m.cells)
  | .copy k m ((cell, j) :: todo) =>
      some (s, .copy { k with buf := k.buf.set (k.read + j) (s.cb.data cell) } m todo)
  | .copy k m [] => some (s, .lockR (.read k m.ret) m.off)
  | .len1 n => some (s, .len2 n s.cb.roff)
  | .len2 n roff =>
      let woff := s.cb.woff
      let cbuf_len := if woff ≥ roff then woff - roff else s.cb.size - roff + woff
      some (s, .off (if cbuf_len < n then cbuf_len else n))
  | .off n =>
      let roff := s.cb.roff + n
      some (s, .lockR (.dispose n) (if roff ≥ s.cb.size then roff - s.cb.size else roff))
  | .lockR d roff =>
      if s.rlock = none then
        some ({ s with rlock := some .consumer }, .storeR d roff)
      else none
  | .storeR d roff =>
      some ({ s with cb := { s.cb with roff }, released := s.released ++ d.bytes s,
                     view := none }, .signalR d)
  | .signalR d => some ({ s with rcond := s.rcond.signal }, .unlockR d)
  | .unlockR d =>
      some ({ s with rlock := none },
        match d with
        | .read k n =>
            let k := { k with read := k.read + n }
            if k.blocking then .loop k else .ret k
        | .dispose n => .disposed n)
  | .ret _ => some (s, .idle)
  | .disposed _ => some (s, .idle)
  | .input1 n => some (s, .input2 n s.cb.roff)
  | .input2 n roff =>
      let woff := s.cb.woff
      let n := if woff < roff then if s.cb.size - roff > n then n else s.cb.size - roff
        else if woff - roff > n then n else woff - roff
      some ({ s with view := some (roff, s.cb.data.read roff n) }, .input roff n)
  | .input _ _ => some (s, .idle)
  | .close => some (s, if s.cb.rdone then .closed (-1) else .closeLock)
  | .closeLock =>
      if s.rlock = none then some ({ s with rlock := some .consumer }, .closeStore) else none
  | .closeStore => some ({ s with cb := { s.cb with rdone := true } }, .closeSignal)
  | .closeSignal => some ({ s with rcond := s.rcond.signal }, .closeUnlock)
  | .closeUnlock => some ({ s with rlock := none }, .closed 0)
  | .closed _ => some (s, .idle)

/-- Actions of the consumer. -/
inductive CAct (α : Type) where
  | call (r : CCall α)
  | go
  | spurious

def cstep (a : CAct α) (s : Shared α) (p : CPc α) : Option (Shared α × CPc α) :=
  match a with
  | .go => cgo s p
  | .call r =>
      match p with
      | .idle => some (s, r.start s)
      | _ => none
  | .spurious =>
      match p with
      | .parked k =>
          if s.wcond = .parked then some ({ s with wcond := .woken }, .parked k) else none
      | _ => none

/-- What a step of the consumer is. -/
inductive CStep (s : Shared α) : CAct α → CPc α → Shared α → CPc α → Prop
  | go {s' : Shared α} {q q' : CPc α} : cgo s q = some (s', q') → CStep s .go q s' q'
  | call (r : CCall α) : CStep s (.call r) .idle s (r.start s)
  | spurious {k : RCall α} : s.wcond = .parked →
      CStep s .spurious (.parked k) { s with wcond := .woken } (.parked k)

theorem cstep_cases {a : CAct α} {s s' : Shared α} {q q' : CPc α}
    (h : cstep a s q = some (s', q')) : CStep s a q s' q' := by
  cases a with
  | go => exact .go h
  | call r =>
      cases q with
      | idle =>
          obtain ⟨rfl, rfl⟩ := Prod.mk.inj (Option.some.inj h)
          exact .call r
      | _ => cases h
  | spurious =>
      cases q with
      | parked k =>
          obtain ⟨hparked, h⟩ := Option.ite_none_right_eq_some.mp h
          obtain ⟨rfl, rfl⟩ := Prod.mk.inj (Option.some.inj h)
          exact .spurious hparked
      | _ => cases h

/-- The consumer changes `rdone` in one step. -/
theorem cgo_rdone {s s' : Shared α} {q q' : CPc α} (h : cgo s q = some (s', q')) :
    s'.cb.rdone = s.cb.rdone ∨ q = .closeStore := by
  cases q with
  | closeStore => exact .inr rfl
  | idle => cases h
  | lockW k | lockR d roff | parked k | closeLock =>
      obtain ⟨_, h⟩ := Option.ite_none_right_eq_some.mp h
      obtain ⟨rfl, rfl⟩ := Prod.mk.inj (Option.some.inj h)
      exact .inl rfl
  | copy k m todo =>
      cases todo <;>
        (obtain ⟨rfl, rfl⟩ := Prod.mk.inj (Option.some.inj h)
         exact .inl rfl)
  | _ =>
      obtain ⟨rfl, rfl⟩ := Prod.mk.inj (Option.some.inj h)
      exact .inl rfl

/-- Closing is for good. -/
theorem cstep_rdone {a : CAct α} {s s' : Shared α} {q q' : CPc α}
    (h : cstep a s q = some (s', q')) (hd : s.cb.rdone = true) : s'.cb.rdone = true := by
  cases cstep_cases h with
  | go h =>
      rcases cgo_rdone h with hsame | rfl
      · rw [hsame, hd]
      · obtain ⟨rfl, rfl⟩ := Prod.mk.inj (Option.some.inj h)
        rfl
  | call r => exact hd
  | spurious hparked => exact hd

/-! ## The system -/

structure Sys (α : Type) where
  sh : Shared α
  p : PPc α
  c : CPc α

inductive Act (α : Type) where
  | prod (a : PAct α)
  | cons (a : CAct α)

def sysStep (a : Act α) (x : Sys α) : Option (Sys α) :=
  match a with
  | .prod a => (pstep a x.sh x.p).map fun (sh, p) => { x with sh, p }
  | .cons a => (cstep a x.sh x.c).map fun (sh, c) => { x with sh, c }

/-- One producer and one consumer on a buffer from `circbuf_init(c)`. -/
def spsc (α : Type) (c : Nat) : Lts (Sys α) (Act α) where
  init x := ∃ env cb, circbufInit env c = some cb ∧ env.Allocatable (c + 1)
    ∧ x = ⟨.fresh cb, .idle, .idle⟩
  step := sysStep

end Streamlike
