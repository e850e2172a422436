import Streamlike.CircbufFifo
import Streamlike.CircbufThreads

/-!
# Safety of one producer and one consumer

The invariant of the two-thread buffer, in three parts. `RingOk` is about
the shared state alone: the bytes released and the unread ones are the
bytes produced. `ProdAt` and `ConsAt` say, at each program point of a
thread, what its locals know about the shared state: a thread's snapshot
of the other's offset may be old, but an old snapshot only understates
the free (unread) part.

Each thread's part survives the steps of the other because of what those
steps can change, stated once for each side: `ProdFrame`, `ConsFrame`.
-/

namespace Streamlike

variable {α : Type} {c : Nat}

/-! ## What the other thread can change -/

/-- Cells that can be written. -/
def Circbuf.free (cb : Circbuf α) : Nat := cb.size - 1 - circbufGetLength cb

/-- What a step of the producer leaves for the consumer: `roff` and the
unread bytes stay, the unread part only grows, and what `wlock` protects
does not move while the consumer holds it. -/
structure ProdFrame (s s' : Shared α) : Prop where
  size : s'.cb.size = s.cb.size
  roff : s'.cb.roff = s.cb.roff
  rdone : s'.cb.rdone = s.cb.rdone
  released : s'.released = s.released
  view : s'.view = s.view
  length_le : circbufGetLength s.cb ≤ circbufGetLength s'.cb
  live : ∀ j < circbufGetLength s.cb,
    s'.cb.data ((s.cb.roff + j) % s.cb.size) = s.cb.data ((s.cb.roff + j) % s.cb.size)
  woff : s.wlock = some .consumer → s'.cb.woff = s.cb.woff ∧ s'.cb.wdone = s.cb.wdone
  wlock : s'.wlock = some .consumer ↔ s.wlock = some .consumer
  rlock : s'.rlock = some .consumer ↔ s.rlock = some .consumer
  wcond : s'.wcond = .out ↔ s.wcond = .out

/-- What a step of the consumer leaves for the producer: `woff` and the
cells stay, the free part only grows, and what `rlock` protects does not
move while the producer holds it. -/
structure ConsFrame (s s' : Shared α) : Prop where
  size : s'.cb.size = s.cb.size
  woff : s'.cb.woff = s.cb.woff
  wdone : s'.cb.wdone = s.cb.wdone
  data : s'.cb.data = s.cb.data
  produced : s'.produced = s.produced
  length_le : circbufGetLength s'.cb ≤ circbufGetLength s.cb
  roff : s.rlock = some .producer → s'.cb.roff = s.cb.roff ∧ s'.cb.rdone = s.cb.rdone
  wlock : s'.wlock = some .producer ↔ s.wlock = some .producer
  rlock : s'.rlock = some .producer ↔ s.rlock = some .producer
  rcond : s'.rcond = .out ↔ s.rcond = .out

/-! ## The invariant -/

/-- The shared part: the offsets stay on the ring, and what was produced
is what was released followed by the unread bytes. -/
structure RingOk (c : Nat) (s : Shared α) : Prop where
  size : s.cb.size = c + 1
  wf : s.cb.Wf
  history : s.produced = s.released ++ s.cb.unread
  /-- The bytes pointed at are the oldest unread ones, in one piece. -/
  view : ∀ cell bs, s.view = some (cell, bs) →
    cell = s.cb.roff ∧ bs.length ≤ circbufGetLength s.cb ∧ cell + bs.length ≤ s.cb.size
      ∧ s.cb.data.read cell bs.length = bs

/-- The producer holds `wlock`. -/
def PPc.holdsW : PPc α → Bool
  | .storeW .. | .signalW .. | .unlockW .. | .closeStore | .closeSignal | .closeUnlock => true
  | _ => false

/-- The producer holds `rlock`. -/
def PPc.holdsR : PPc α → Bool
  | .full1 .. | .full2 .. | .full3 .. | .full4 .. | .full5 .. | .wait .. | .unlockR .. => true
  | _ => false

/-- The producer is on the queue of `rcond`. -/
def PPc.waits : PPc α → Bool
  | .parked .. => true
  | _ => false

/-- What the producer's locals know. -/
def ProdAt (s : Shared α) : PPc α → Prop
  | .full2 _ woff => woff = s.cb.woff
  | .full3 _ => s.cb.woff + 1 ≠ s.cb.roff
  | .full4 _ => s.cb.woff + 1 = s.cb.size
  | .full5 _ => circbufGetLength s.cb = s.cb.size - 1
  | .wait _ => circbufGetLength s.cb = s.cb.size - 1 ∧ s.cb.rdone = false
  | .someR _ woff => woff = s.cb.woff
  -- the first `i` bytes are in their cells
  | .copy k b m todo =>
      m.Moves s.cb.size s.cb.woff m.ret ∧ m.off < s.cb.size ∧ m.ret ≤ s.cb.free
        ∧ ∃ i ≤ m.ret, todo = m.cells.drop i
          ∧ ∀ j < i, s.cb.data ((s.cb.woff + j) % s.cb.size) = b (k.written + j)
  | .writer _ woff total got todo =>
      woff = (s.cb.woff + total) % s.cb.size ∧ got.length = total
        ∧ ByteRing.window s.cb.data s.cb.size s.cb.woff total = got
        ∧ ∃ n, Tiles s.cb.size woff todo n ∧ total + n ≤ s.cb.free
  | .lockW _ woff n got | .storeW _ woff n got =>
      woff = (s.cb.woff + n) % s.cb.size ∧ n ≤ s.cb.free ∧ got.length = n
        ∧ ByteRing.window s.cb.data s.cb.size s.cb.woff n = got
  | _ => True

/-- The producer's part. -/
structure ProdOk (s : Shared α) (p : PPc α) : Prop where
  wlock : s.wlock = some .producer ↔ p.holdsW = true
  rlock : s.rlock = some .producer ↔ p.holdsR = true
  rcond : s.rcond = .out ↔ p.waits = false
  at_ : ProdAt s p

def CPc.holdsW : CPc α → Bool
  | .empty1 .. | .empty2 .. | .empty3 .. | .wait .. | .unlockW .. => true
  | _ => false

def CPc.holdsR : CPc α → Bool
  | .storeR .. | .signalR .. | .unlockR .. | .closeStore | .closeSignal | .closeUnlock => true
  | _ => false

def CPc.waits : CPc α → Bool
  | .parked .. => true
  | _ => false

def Done.count : Done α → Nat
  | .read _ n => n
  | .dispose n => n

/-- A pending publish of `roff` releases unread bytes, the ones that were
read. -/
structure DoneOk (s : Shared α) (d : Done α) (roff : Nat) : Prop where
  count_le : d.count ≤ circbufGetLength s.cb
  roff_le : roff ≤ s.cb.size
  roff_mod : roff % s.cb.size = (s.cb.roff + d.count) % s.cb.size
  bytes : d.bytes s = ByteRing.window s.cb.data s.cb.size s.cb.roff d.count

/-- What the consumer's locals know. -/
def ConsAt (s : Shared α) : CPc α → Prop
  | .loopW _ roff => roff = s.cb.roff
  | .empty2 _ roff => roff = s.cb.roff
  | .empty3 _ => s.cb.roff = s.cb.woff
  | .wait _ => s.cb.roff = s.cb.woff ∧ s.cb.wdone = false
  | .someW _ roff => roff = s.cb.roff
  -- the first `i` bytes have been copied
  | .copy k m todo =>
      m.Moves s.cb.size s.cb.roff m.ret ∧ m.ret ≤ circbufGetLength s.cb
        ∧ ∃ i ≤ m.ret, todo = m.cells.drop i
          ∧ ∀ j < i, k.buf (k.read + j) = s.cb.data ((s.cb.roff + j) % s.cb.size)
  | .len2 _ roff => roff = s.cb.roff
  | .off n => n ≤ circbufGetLength s.cb
  | .lockR d roff | .storeR d roff => DoneOk s d roff
  | .input2 _ roff => roff = s.cb.roff
  | _ => True

/-- Inside a read call: the bytes that the call has released so far. -/
def CPc.sofar : CPc α → Option (List α)
  | .loop k | .loopW k _ | .loopD k | .lockW k | .empty1 k | .empty2 k _ | .empty3 k
  | .wait k | .parked k | .unlockW k | .someR k | .someW k _ | .copy k _ _
  | .lockR (.read k _) _ | .storeR (.read k _) _ | .ret k =>
      some (k.pre ++ k.buf.read 0 k.read)
  | .signalR (.read k n) | .unlockR (.read k n) =>
      some (k.pre ++ k.buf.read 0 (k.read + n))
  | _ => none

/-- The consumer's part. -/
structure ConsOk (s : Shared α) (p : CPc α) : Prop where
  wlock : s.wlock = some .consumer ↔ p.holdsW = true
  rlock : s.rlock = some .consumer ↔ p.holdsR = true
  wcond : s.wcond = .out ↔ p.waits = false
  at_ : ConsAt s p
  sofar : ∀ l, p.sofar = some l → s.released = l

structure Inv (c : Nat) (x : Sys α) : Prop where
  ring : RingOk c x.sh
  prod : ProdOk x.sh x.p
  cons : ConsOk x.sh x.c

/-! ## Steps that leave the cells and offsets alone -/

theorem RingOk.congr {s s' : Shared α} (hr : RingOk c s) (hcb : s'.cb = s.cb)
    (hp : s'.produced = s.produced) (hrel : s'.released = s.released)
    (hv : s'.view = s.view) : RingOk c s' where
  size := by rw [hcb]; exact hr.size
  wf := by rw [hcb]; exact hr.wf
  history := by rw [hcb, hp, hrel]; exact hr.history
  view := by rw [hcb, hv]; exact hr.view

theorem ProdFrame.congr {s s' : Shared α} (hcb : s'.cb = s.cb)
    (hrel : s'.released = s.released) (hv : s'.view = s.view)
    (hw : s'.wlock = some .consumer ↔ s.wlock = some .consumer)
    (hr : s'.rlock = some .consumer ↔ s.rlock = some .consumer)
    (hc : s'.wcond = .out ↔ s.wcond = .out) : ProdFrame s s' where
  size := by rw [hcb]
  roff := by rw [hcb]
  rdone := by rw [hcb]
  released := hrel
  view := hv
  length_le := by rw [hcb]
  live := fun _ _ => by rw [hcb]
  woff := fun _ => by rw [hcb]; exact ⟨rfl, rfl⟩
  wlock := hw
  rlock := hr
  wcond := hc

theorem ConsFrame.congr {s s' : Shared α} (hcb : s'.cb = s.cb)
    (hp : s'.produced = s.produced)
    (hw : s'.wlock = some .producer ↔ s.wlock = some .producer)
    (hr : s'.rlock = some .producer ↔ s.rlock = some .producer)
    (hc : s'.rcond = .out ↔ s.rcond = .out) : ConsFrame s s' where
  size := by rw [hcb]
  woff := by rw [hcb]
  wdone := by rw [hcb]
  data := by rw [hcb]
  produced := hp
  length_le := by rw [hcb]
  roff := fun _ => by rw [hcb]; exact ⟨rfl, rfl⟩
  wlock := hw
  rlock := hr
  rcond := hc

theorem ProdFrame.refl (s : Shared α) : ProdFrame s s :=
  .congr rfl rfl rfl .rfl .rfl .rfl

theorem ConsFrame.refl (s : Shared α) : ConsFrame s s :=
  .congr rfl rfl .rfl .rfl .rfl

/-! ## The producer's steps -/

/-- What is shown of a step of the producer. -/
structure ProdStep (c : Nat) (s s' : Shared α) (p' : PPc α) : Prop where
  ring : RingOk c s'
  prod : ProdOk s' p'
  frame : ProdFrame s s'

/-- A step that only moves the program point. -/
theorem ProdStep.local_ {s : Shared α} {p p' : PPc α} (hr : RingOk c s) (hp : ProdOk s p)
    (hw : p'.holdsW = p.holdsW) (hrl : p'.holdsR = p.holdsR) (hwt : p'.waits = p.waits)
    (hat : ProdAt s p') : ProdStep c s s p' where
  ring := hr
  prod := ⟨by rw [hw]; exact hp.wlock, by rw [hrl]; exact hp.rlock,
    by rw [hwt]; exact hp.rcond, hat⟩
  frame := .refl s

/-- The next byte of a copy in progress. -/
theorem Moved.Moves.next {m : Moved} {size off i cell j : Nat} {todo : List (Nat × Nat)}
    (hm : m.Moves size off m.ret) (h : (cell, j) :: todo = m.cells.drop i) :
    i < m.ret ∧ cell = (off + i) % size ∧ j = i ∧ todo = m.cells.drop (i + 1) := by
  have hi : i < m.cells.length := by
    by_contra hge
    rw [List.drop_eq_nil_of_le (by omega)] at h
    cases h
  rw [List.drop_eq_getElem_cons hi] at h
  obtain ⟨hhead, htail⟩ := List.cons.inj h
  have hcell : m.cells[i] = ((off + i) % size, i) := by simp [hm.cells]
  rw [hcell] at hhead
  obtain ⟨hc, hj⟩ := Prod.mk.inj hhead
  refine ⟨?_, hc, hj, htail⟩
  rwa [hm.cells, List.length_map, List.length_range] at hi

/-- A copy with nothing left to do has moved every byte. -/
theorem Moved.Moves.done {m : Moved} {size off i : Nat} (hm : m.Moves size off m.ret)
    (h : [] = m.cells.drop i) : m.ret ≤ i := by
  have := List.drop_eq_nil_iff.mp h.symm
  rwa [hm.cells, List.length_map, List.length_range] at this

/-- A free cell holds none of the unread bytes. -/
theorem store_live {cb : Circbuf α} (hwf : cb.Wf) {i : Nat} (hi : i < cb.free) (b : α)
    {j : Nat} (hj : j < circbufGetLength cb) :
    cb.data.set ((cb.woff + i) % cb.size) b ((cb.roff + j) % cb.size)
      = cb.data ((cb.roff + j) % cb.size) := by
  have hlt := ByteRing.used_lt hwf.woff_lt hwf.roff_le
  rw [Circbuf.free] at hi
  rw [circbufGetLength_eq] at hi hj
  refine ByteMem.set_of_ne _ _ ?_
  rw [← ByteRing.cell_used hwf.woff_lt hwf.roff_le, Nat.mod_add_mod, Nat.add_assoc]
  exact ByteRing.cell_ne (by omega) (by omega)

theorem ProdFrame.store {s : Shared α} (hr : RingOk c s) {i : Nat} (hi : i < s.cb.free)
    (b : α) : ProdFrame s (s.store ((s.cb.woff + i) % s.cb.size) b) where
  size := rfl
  roff := rfl
  rdone := rfl
  released := rfl
  view := rfl
  length_le := Nat.le_refl _
  live := fun _ hj => store_live hr.wf hi b hj
  woff := fun _ => ⟨rfl, rfl⟩
  wlock := .rfl
  rlock := .rfl
  wcond := .rfl

theorem RingOk.store {s : Shared α} (hr : RingOk c s) {i : Nat} (hi : i < s.cb.free) (b : α) :
    RingOk c (s.store ((s.cb.woff + i) % s.cb.size) b) where
  size := hr.size
  wf := ⟨hr.wf.woff_lt, hr.wf.roff_le⟩
  history := by
    refine hr.history.trans (congrArg _ ?_)
    exact ByteRing.window_congr fun j hj => (store_live hr.wf hi b hj).symm
  view := by
    intro cell bs hv
    obtain ⟨hcell, hlen, hfit, hbs⟩ := hr.view cell bs hv
    refine ⟨hcell, hlen, hfit, Eq.trans (ByteMem.read_congr fun j hj => ?_) hbs⟩
    have := store_live hr.wf hi b (show j < circbufGetLength s.cb by omega)
    rwa [← hcell, Nat.mod_eq_of_lt (show cell + j < s.cb.size by omega)] at this

/-- Storing past the first `k` free cells leaves them alone. -/
theorem window_store {cb : Circbuf α} {i k : Nat} (hi : i < cb.size) (hk : k ≤ i) (b : α) :
    ByteRing.window (cb.data.set ((cb.woff + i) % cb.size) b) cb.size cb.woff k
      = ByteRing.window cb.data cb.size cb.woff k :=
  ByteRing.window_congr fun _ hj =>
    ByteMem.set_of_ne _ _ (ByteRing.cell_ne (by omega) (by omega))

/-- The publish of `woff` appends the bytes in the cells before it. -/
theorem RingOk.publish {s : Shared α} (hr : RingOk c s) {n : Nat} {got : List α}
    (hn : n ≤ s.cb.free) (hlen : got.length = n)
    (hcells : ByteRing.window s.cb.data s.cb.size s.cb.woff n = got) :
    let s' := { s with cb := { s.cb with woff := (s.cb.woff + n) % s.cb.size },
                       produced := s.produced ++ got }
    RingOk c s' ∧ circbufGetLength s'.cb = circbufGetLength s.cb + n := by
  have hw := hr.wf.woff_lt
  have hle := hr.wf.roff_le
  have hlength : ByteRing.used s.cb.size s.cb.roff ((s.cb.woff + n) % s.cb.size)
      = ByteRing.used s.cb.size s.cb.roff s.cb.woff + n :=
    ByteRing.used_advance_woff hw hle hn
  subst hlen
  have happend : ({ s.cb with woff := (s.cb.woff + got.length) % s.cb.size } : Circbuf α).unread
      = s.cb.unread ++ got :=
    unread_append hr.wf rfl rfl rfl hn hcells fun _ _ => rfl
  refine ⟨⟨hr.size, ⟨Nat.mod_lt _ (by omega), hle⟩, ?_, ?_⟩, hlength⟩
  · dsimp only
    rw [hr.history, List.append_assoc, happend]
  · intro cell bs hv
    obtain ⟨hcell, hbs, hfit, hread⟩ := hr.view cell bs hv
    refine ⟨hcell, ?_, hfit, hread⟩
    rw [circbufGetLength_eq] at hbs ⊢
    dsimp only
    omega

/-- All bytes of the copy are in their cells. -/
theorem ProdAt.copyDone {s : Shared α} {k : WCall α} {b : ByteMem α} {m : Moved}
    (hat : ProdAt s (.copy k b m [])) :
    ProdAt s (.lockW k m.off m.ret (b.read k.written m.ret)) := by
  obtain ⟨hm, hoff, hfit, i, hi, htodo, hdone⟩ := hat
  obtain rfl : i = m.ret := Nat.le_antisymm hi (hm.done htodo)
  refine ⟨?_, hfit, ByteMem.length_read _ _ _, ?_⟩
  · rw [← hm.off_mod, Nat.mod_eq_of_lt hoff]
  · exact List.map_congr_left fun j hj => hdone j (List.mem_range.mp hj)

/-- One more byte of the copy is in its cell. -/
theorem ProdAt.copied {s : Shared α} (hr : RingOk c s) {k : WCall α} {b : ByteMem α} {m : Moved}
    {cell j : Nat} {todo : List (Nat × Nat)}
    (hat : ProdAt s (.copy k b m ((cell, j) :: todo))) :
    cell = (s.cb.woff + j) % s.cb.size ∧ j < s.cb.free
      ∧ ProdAt (s.store cell (b (k.written + j))) (.copy k b m todo) := by
  obtain ⟨hm, hoff, hfit, i, hi, htodo, hdone⟩ := hat
  have hw := hr.wf.woff_lt
  have hsize : s.cb.free < s.cb.size := by unfold Circbuf.free; omega
  obtain ⟨hlt, rfl, rfl, rfl⟩ := hm.next htodo
  refine ⟨rfl, by omega, hm, hoff, hfit, j + 1, hlt, rfl, fun j' hj' => ?_⟩
  rcases Nat.lt_succ_iff_lt_or_eq.mp hj' with hold | rfl
  · rw [← hdone j' hold]
    exact ByteMem.set_of_ne _ _ (ByteRing.cell_ne hold (by dsimp only [Shared.store]; omega))
  · exact ByteMem.set_self _ _ _

/-- Every step of the producer's program. -/
theorem pgo_ok {s s' : Shared α} {p p' : PPc α} (hr : RingOk c s) (hp : ProdOk s p)
    (h : pgo s p = some (s', p')) : ProdStep c s s' p' := by
  have hw := hr.wf.woff_lt
  have hle := hr.wf.roff_le
  have hat := hp.at_
  cases p with
  | idle => cases h
  | entry k =>
      obtain ⟨rfl, rfl⟩ := Prod.mk.inj (Option.some.inj h)
      split <;> exact .local_ hr hp rfl rfl rfl trivial
  | loop k =>
      obtain ⟨rfl, rfl⟩ := Prod.mk.inj (Option.some.inj h)
      split_ifs <;> exact .local_ hr hp rfl rfl rfl trivial
  | lockR k =>
      obtain ⟨hfree, h⟩ := Option.ite_none_right_eq_some.mp h
      obtain ⟨rfl, rfl⟩ := Prod.mk.inj (Option.some.inj h)
      exact ⟨hr.congr rfl rfl rfl rfl, ⟨hp.wlock, by simp [PPc.holdsR], hp.rcond, trivial⟩,
        .congr rfl rfl rfl .rfl (by simp [hfree]) .rfl⟩
  | full1 k =>
      obtain ⟨rfl, rfl⟩ := Prod.mk.inj (Option.some.inj h)
      exact .local_ hr hp rfl rfl rfl rfl
  | full2 k woff =>
      obtain ⟨rfl, rfl⟩ := Prod.mk.inj (Option.some.inj h)
      obtain rfl : woff = s.cb.woff := hat
      split
      · next heq => exact .local_ hr hp rfl rfl rfl ((full_iff hw hle).mp (.inl heq))
      · next hne => exact .local_ hr hp rfl rfl rfl hne
  | full3 k =>
      obtain ⟨rfl, rfl⟩ := Prod.mk.inj (Option.some.inj h)
      split
      · next heq => exact .local_ hr hp rfl rfl rfl heq
      · exact .local_ hr hp rfl rfl rfl trivial
  | full4 k =>
      obtain ⟨rfl, rfl⟩ := Prod.mk.inj (Option.some.inj h)
      have hend : s.cb.woff + 1 = s.cb.size := hat
      split
      · next hzero =>
        exact .local_ hr hp rfl rfl rfl ((full_iff hw hle).mp (.inr ⟨by omega, hzero⟩))
      · exact .local_ hr hp rfl rfl rfl trivial
  | full5 k =>
      obtain ⟨rfl, rfl⟩ := Prod.mk.inj (Option.some.inj h)
      split
      · exact .local_ hr hp rfl rfl rfl trivial
      · next hopen => exact .local_ hr hp rfl rfl rfl ⟨hat, by simpa using hopen⟩
  | wait k =>
      obtain ⟨rfl, rfl⟩ := Prod.mk.inj (Option.some.inj h)
      have hheld : s.rlock = some .producer := hp.rlock.mpr rfl
      exact ⟨hr.congr rfl rfl rfl rfl,
        ⟨hp.wlock, by simp [PPc.holdsR], by simp [PPc.waits], trivial⟩,
        .congr rfl rfl rfl .rfl (by simp [hheld]) .rfl⟩
  | parked k =>
      obtain ⟨⟨_, hfree⟩, h⟩ := Option.ite_none_right_eq_some.mp h
      obtain ⟨rfl, rfl⟩ := Prod.mk.inj (Option.some.inj h)
      exact ⟨hr.congr rfl rfl rfl rfl,
        ⟨hp.wlock, by simp [PPc.holdsR], by simp [PPc.waits], trivial⟩,
        .congr rfl rfl rfl .rfl (by simp [hfree]) .rfl⟩
  | unlockR k =>
      obtain ⟨rfl, rfl⟩ := Prod.mk.inj (Option.some.inj h)
      have hheld : s.rlock = some .producer := hp.rlock.mpr rfl
      exact ⟨hr.congr rfl rfl rfl rfl, ⟨hp.wlock, by simp [PPc.holdsR], hp.rcond, trivial⟩,
        .congr rfl rfl rfl .rfl (by simp [hheld]) .rfl⟩
  | check k =>
      obtain ⟨rfl, rfl⟩ := Prod.mk.inj (Option.some.inj h)
      split <;> exact .local_ hr hp rfl rfl rfl trivial
  | someW k =>
      obtain ⟨rfl, rfl⟩ := Prod.mk.inj (Option.some.inj h)
      exact .local_ hr hp rfl rfl rfl rfl
  | someR k woff =>
      obtain ⟨rfl, rfl⟩ := Prod.mk.inj (Option.some.inj h)
      obtain rfl : woff = s.cb.woff := hat
      split
      · -- the source is the caller's memory
        have hm := writeSome_moves (n := k.len - k.written) hw hle
        have hret := hm.ret
        rw [← hret] at hm
        refine .local_ hr hp rfl rfl rfl ⟨hm, writeSome_off_lt hw hle, ?_, 0, Nat.zero_le _, rfl,
          fun _ hj => absurd hj (Nat.not_lt_zero _)⟩
        rw [hret]
        exact Nat.min_le_right _ _
      · -- the source is a writer
        refine .local_ hr hp rfl rfl rfl ⟨(Nat.mod_eq_of_lt hw).symm, rfl, rfl, _,
          writeSome2_calls_tiles hw hle, ?_⟩
        rw [Nat.zero_add]
        exact Nat.min_le_right _ _
  | copy k b m todo =>
      cases todo with
      | nil =>
          obtain ⟨rfl, rfl⟩ := Prod.mk.inj (Option.some.inj h)
          exact .local_ hr hp rfl rfl rfl (ProdAt.copyDone hat)
      | cons x todo =>
          obtain ⟨cell, j⟩ := x
          obtain ⟨rfl, rfl⟩ := Prod.mk.inj (Option.some.inj h)
          obtain ⟨rfl, hlt, hat'⟩ := ProdAt.copied hr hat
          exact ⟨hr.store hlt _, ⟨hp.wlock, hp.rlock, hp.rcond, hat'⟩, .store hr hlt _⟩
  | writer k woff total got todo =>
      obtain ⟨hwoff, hlen, hcells, n, _, hfit⟩ := hat
      cases todo with
      | nil =>
          obtain ⟨rfl, rfl⟩ := Prod.mk.inj (Option.some.inj h)
          exact .local_ hr hp rfl rfl rfl ⟨hwoff, by omega, hlen, hcells⟩
      | cons r todo => cases h
  | lockW k woff n got =>
      obtain ⟨hfree, h⟩ := Option.ite_none_right_eq_some.mp h
      obtain ⟨rfl, rfl⟩ := Prod.mk.inj (Option.some.inj h)
      exact ⟨hr.congr rfl rfl rfl rfl, ⟨by simp [PPc.holdsW], hp.rlock, hp.rcond, hat⟩,
        .congr rfl rfl rfl (by simp [hfree]) .rfl .rfl⟩
  | storeW k woff n got =>
      obtain ⟨rfl, rfl⟩ := Prod.mk.inj (Option.some.inj h)
      obtain ⟨rfl, hfit, hlen, hcells⟩ := hat
      have hheld : s.wlock = some .producer := hp.wlock.mpr rfl
      obtain ⟨hring, hlength⟩ := hr.publish hfit hlen hcells
      refine ⟨hring, ⟨hp.wlock, hp.rlock, hp.rcond, trivial⟩, ?_⟩
      exact
        { size := rfl, roff := rfl, rdone := rfl, released := rfl, view := rfl
          length_le := by rw [hlength]; exact Nat.le_add_right _ _
          live := fun _ _ => rfl
          woff := fun hcons => by rw [hheld] at hcons; cases hcons
          wlock := .rfl, rlock := .rfl, wcond := .rfl }
  | signalW k n =>
      obtain ⟨rfl, rfl⟩ := Prod.mk.inj (Option.some.inj h)
      exact ⟨hr.congr rfl rfl rfl rfl, ⟨hp.wlock, hp.rlock, hp.rcond, trivial⟩,
        .congr rfl rfl rfl .rfl .rfl (Wait.signal_eq_out _)⟩
  | unlockW k n =>
      obtain ⟨rfl, rfl⟩ := Prod.mk.inj (Option.some.inj h)
      have hheld : s.wlock = some .producer := hp.wlock.mpr rfl
      split
      · exact ⟨hr.congr rfl rfl rfl rfl, ⟨by simp [PPc.holdsW], hp.rlock, hp.rcond, trivial⟩,
          .congr rfl rfl rfl (by simp [hheld]) .rfl .rfl⟩
      · exact ⟨hr.congr rfl rfl rfl rfl, ⟨by simp [PPc.holdsW], hp.rlock, hp.rcond, trivial⟩,
          .congr rfl rfl rfl (by simp [hheld]) .rfl .rfl⟩
  | ret k n =>
      obtain ⟨rfl, rfl⟩ := Prod.mk.inj (Option.some.inj h)
      exact .local_ hr hp rfl rfl rfl trivial
  | close =>
      obtain ⟨rfl, rfl⟩ := Prod.mk.inj (Option.some.inj h)
      split <;> exact .local_ hr hp rfl rfl rfl trivial
  | closeLock =>
      obtain ⟨hfree, h⟩ := Option.ite_none_right_eq_some.mp h
      obtain ⟨rfl, rfl⟩ := Prod.mk.inj (Option.some.inj h)
      exact ⟨hr.congr rfl rfl rfl rfl, ⟨by simp [PPc.holdsW], hp.rlock, hp.rcond, trivial⟩,
        .congr rfl rfl rfl (by simp [hfree]) .rfl .rfl⟩
  | closeStore =>
      obtain ⟨rfl, rfl⟩ := Prod.mk.inj (Option.some.inj h)
      have hheld : s.wlock = some .producer := hp.wlock.mpr rfl
      refine ⟨⟨hr.size, ⟨hw, hle⟩, hr.history, hr.view⟩,
        ⟨hp.wlock, hp.rlock, hp.rcond, trivial⟩, ?_⟩
      exact
        { size := rfl, roff := rfl, rdone := rfl, released := rfl, view := rfl
          length_le := Nat.le_refl _
          live := fun _ _ => rfl
          woff := fun hcons => by rw [hheld] at hcons; cases hcons
          wlock := .rfl, rlock := .rfl, wcond := .rfl }
  | closeSignal =>
      obtain ⟨rfl, rfl⟩ := Prod.mk.inj (Option.some.inj h)
      exact ⟨hr.congr rfl rfl rfl rfl, ⟨hp.wlock, hp.rlock, hp.rcond, trivial⟩,
        .congr rfl rfl rfl .rfl .rfl (Wait.signal_eq_out _)⟩
  | closeUnlock =>
      obtain ⟨rfl, rfl⟩ := Prod.mk.inj (Option.some.inj h)
      have hheld : s.wlock = some .producer := hp.wlock.mpr rfl
      exact ⟨hr.congr rfl rfl rfl rfl, ⟨by simp [PPc.holdsW], hp.rlock, hp.rcond, trivial⟩,
        .congr rfl rfl rfl (by simp [hheld]) .rfl .rfl⟩
  | closed code =>
      obtain ⟨rfl, rfl⟩ := Prod.mk.inj (Option.some.inj h)
      exact .local_ hr hp rfl rfl rfl trivial

/-- A cell of the region that a writer fills is a free cell. -/
theorem writer_cell {s : Shared α} {woff total n i : Nat} {r : Region} {todo : List Region}
    (hwoff : woff = (s.cb.woff + total) % s.cb.size)
    (ht : Tiles s.cb.size woff (r :: todo) n) (hi : i < r.length) :
    r.there = woff ∧ r.there + r.length ≤ s.cb.size ∧ i < n ∧
      r.there + i = (s.cb.woff + (total + i)) % s.cb.size := by
  cases ht with
  | cons hfit hrest =>
      refine ⟨rfl, hfit, by omega, ?_⟩
      rw [← Nat.add_assoc, ← Nat.mod_add_mod, ← hwoff, Nat.mod_eq_of_lt (by omega)]

/-- Every step of the producer. -/
theorem pstep_ok {a : PAct α} {s s' : Shared α} {p p' : PPc α} (hr : RingOk c s)
    (hp : ProdOk s p) (h : pstep a s p = some (s', p')) : ProdStep c s s' p' := by
  have hw := hr.wf.woff_lt
  cases pstep_cases h with
  | go h => exact pgo_ok hr hp h
  | call r => cases r <;> exact .local_ hr hp rfl rfl rfl trivial
  | store b hi =>
      obtain ⟨hwoff, hlen, hcells, n, ht, hfit⟩ := hp.at_
      have hsize : s.cb.free < s.cb.size := by unfold Circbuf.free; omega
      obtain ⟨-, -, hin, hcell⟩ := writer_cell hwoff ht hi
      rw [hcell]
      refine ⟨hr.store (by omega) b, ⟨hp.wlock, hp.rlock, hp.rcond, hwoff, hlen, ?_, n, ht,
        hfit⟩, .store hr (by omega) b⟩
      exact (window_store (by omega) (by omega) b).trans hcells
  | @wret k woff total n got r todo hn =>
      obtain ⟨hwoff, hlen, hcells, m, ht, hfit⟩ := hp.at_
      have hnext : (woff + n) % s.cb.size = (s.cb.woff + (total + n)) % s.cb.size := by
        rw [hwoff, Nat.mod_add_mod, Nat.add_assoc]
      cases ht with
      | @cons _ _ rest hregion hrest =>
          have hgot : ByteRing.window s.cb.data s.cb.size s.cb.woff (total + n)
              = got ++ s.cb.data.read r.there n := by
            rw [ByteRing.window_add, hcells,
              ByteRing.window_start r.there n (by rw [hwoff, Nat.mod_mod]),
              ByteRing.window_eq_read _ (by omega)]
          have hgotlen : (got ++ s.cb.data.read r.there n).length = total + n := by
            rw [List.length_append, ByteMem.length_read, hlen]
          split
          · exact .local_ hr hp rfl rfl rfl ⟨hnext, by omega, hgotlen, hgot⟩
          · next hfull =>
            obtain rfl : n = r.length := by omega
            exact .local_ hr hp rfl rfl rfl ⟨hnext, hgotlen, hgot, rest, hrest, by omega⟩
  | spurious hparked =>
      exact ⟨hr.congr rfl rfl rfl rfl,
        ⟨hp.wlock, hp.rlock, by simp [PPc.waits], trivial⟩,
        .congr rfl rfl rfl .rfl .rfl .rfl⟩

/-! ## The consumer's steps -/

/-- What is shown of a step of the consumer. -/
structure ConsStep (c : Nat) (s s' : Shared α) (p' : CPc α) : Prop where
  ring : RingOk c s'
  cons : ConsOk s' p'
  frame : ConsFrame s s'

/-- A step that only moves the program point. -/
theorem ConsStep.local_ {s : Shared α} {p p' : CPc α} (hr : RingOk c s) (hp : ConsOk s p)
    (hw : p'.holdsW = p.holdsW) (hrl : p'.holdsR = p.holdsR) (hwt : p'.waits = p.waits)
    (hso : ∀ l, p'.sofar = some l → p.sofar = some l) (hat : ConsAt s p') :
    ConsStep c s s p' where
  ring := hr
  cons := ⟨by rw [hw]; exact hp.wlock, by rw [hrl]; exact hp.rlock,
    by rw [hwt]; exact hp.wcond, hat, fun l hl => hp.sofar l (hso l hl)⟩
  frame := .refl s

/-- The publish of `roff` releases the oldest unread bytes. -/
theorem RingOk.release {s : Shared α} (hr : RingOk c s) {d : Done α} {roff : Nat}
    (hd : DoneOk s d roff) :
    let s' := { s with cb := { s.cb with roff }, released := s.released ++ d.bytes s,
                       view := none }
    RingOk c s' ∧ circbufGetLength s'.cb = circbufGetLength s.cb - d.count := by
  have hlength : ByteRing.used s.cb.size roff s.cb.woff
      = ByteRing.used s.cb.size s.cb.roff s.cb.woff - d.count :=
    ByteRing.used_advance_roff hr.wf.woff_lt hr.wf.roff_le hd.count_le hd.roff_le hd.roff_mod
  have hdrop : ({ s.cb with roff } : Circbuf α).unread = s.cb.unread.drop d.count :=
    unread_drop hr.wf rfl rfl rfl hd.count_le hd.roff_le hd.roff_mod
  have htake : d.bytes s = s.cb.unread.take d.count := by
    rw [hd.bytes, Circbuf.unread, ByteRing.take_window _ _ _ hd.count_le]
  refine ⟨⟨hr.size, ⟨hr.wf.woff_lt, hd.roff_le⟩, ?_, by simp⟩, hlength⟩
  dsimp only
  rw [hr.history, hdrop, htake, List.append_assoc, List.take_append_drop]

/-- `circbuf_input_some` points at unread bytes, in one piece. -/
theorem inputSome_fits {cb : Circbuf α} (n : Nat) (hwf : cb.Wf) :
    (circbufInputSome cb n).2 ≤ circbufGetLength cb
      ∧ cb.roff + (circbufInputSome cb n).2 ≤ cb.size := by
  have hw := hwf.woff_lt
  have hr := hwf.roff_le
  simp only [circbufInputSome, circbufGetLength]
  split_ifs <;> omega

/-- Storing past the bytes that have been read leaves them alone. -/
theorem read_set (buf : ByteMem α) (n j : Nat) (b : α) :
    (buf.set (n + j) b).read 0 n = buf.read 0 n :=
  ByteMem.read_congr fun _ hj => ByteMem.set_of_ne _ _ (by omega)

/-- All bytes of the copy are in the caller's memory. -/
theorem ConsAt.copyDone {s : Shared α} {k : RCall α} {m : Moved}
    (hat : ConsAt s (.copy k m [])) : DoneOk s (.read k m.ret) m.off := by
  obtain ⟨hm, hfit, i, hi, htodo, hdone⟩ := hat
  obtain rfl : i = m.ret := Nat.le_antisymm hi (hm.done htodo)
  refine ⟨hfit, hm.off_le, hm.off_mod, ?_⟩
  exact List.map_congr_left fun j hj => hdone j (List.mem_range.mp hj)

/-- One more byte of the copy is in the caller's memory. -/
theorem ConsAt.copied {s : Shared α} {k : RCall α} {m : Moved} {cell j : Nat}
    {todo : List (Nat × Nat)} (hat : ConsAt s (.copy k m ((cell, j) :: todo))) :
    cell = (s.cb.roff + j) % s.cb.size
      ∧ ConsAt s (.copy { k with buf := k.buf.set (k.read + j) (s.cb.data cell) } m todo) := by
  obtain ⟨hm, hfit, i, hi, htodo, hdone⟩ := hat
  obtain ⟨hlt, rfl, rfl, rfl⟩ := hm.next htodo
  refine ⟨rfl, hm, hfit, j + 1, hlt, rfl, fun j' hj' => ?_⟩
  rcases Nat.lt_succ_iff_lt_or_eq.mp hj' with hold | rfl
  · rw [← hdone j' hold]
    exact ByteMem.set_of_ne _ _ (by dsimp only; omega)
  · exact ByteMem.set_self _ _ _

/-- Every step of the consumer's program. -/
theorem cgo_ok {s s' : Shared α} {p p' : CPc α} (hr : RingOk c s) (hp : ConsOk s p)
    (h : cgo s p = some (s', p')) : ConsStep c s s' p' := by
  have hw := hr.wf.woff_lt
  have hle := hr.wf.roff_le
  have hat := hp.at_
  have hso := hp.sofar
  cases p with
  | idle => cases h
  | loop k =>
      obtain ⟨rfl, rfl⟩ := Prod.mk.inj (Option.some.inj h)
      split
      · exact .local_ hr hp rfl rfl rfl (fun _ => id) rfl
      · exact .local_ hr hp rfl rfl rfl (fun _ => id) trivial
  | loopW k roff =>
      obtain ⟨rfl, rfl⟩ := Prod.mk.inj (Option.some.inj h)
      split <;> exact .local_ hr hp rfl rfl rfl (fun _ => id) trivial
  | loopD k =>
      obtain ⟨rfl, rfl⟩ := Prod.mk.inj (Option.some.inj h)
      split <;> exact .local_ hr hp rfl rfl rfl (fun _ => id) trivial
  | lockW k =>
      obtain ⟨hfree, h⟩ := Option.ite_none_right_eq_some.mp h
      obtain ⟨rfl, rfl⟩ := Prod.mk.inj (Option.some.inj h)
      exact ⟨hr.congr rfl rfl rfl rfl, ⟨by simp [CPc.holdsW], hp.rlock, hp.wcond, trivial, hso⟩,
        .congr rfl rfl (by simp [hfree]) .rfl .rfl⟩
  | empty1 k =>
      obtain ⟨rfl, rfl⟩ := Prod.mk.inj (Option.some.inj h)
      exact .local_ hr hp rfl rfl rfl (fun _ => id) rfl
  | empty2 k roff =>
      obtain ⟨rfl, rfl⟩ := Prod.mk.inj (Option.some.inj h)
      obtain rfl : roff = s.cb.roff := hat
      split
      · next heq => exact .local_ hr hp rfl rfl rfl (fun _ => id) heq
      · exact .local_ hr hp rfl rfl rfl (fun _ => id) trivial
  | empty3 k =>
      obtain ⟨rfl, rfl⟩ := Prod.mk.inj (Option.some.inj h)
      split
      · exact .local_ hr hp rfl rfl rfl (fun _ => id) trivial
      · next hopen => exact .local_ hr hp rfl rfl rfl (fun _ => id) ⟨hat, by simpa using hopen⟩
  | wait k =>
      obtain ⟨rfl, rfl⟩ := Prod.mk.inj (Option.some.inj h)
      have hheld : s.wlock = some .consumer := hp.wlock.mpr rfl
      exact ⟨hr.congr rfl rfl rfl rfl,
        ⟨by simp [CPc.holdsW], hp.rlock, by simp [CPc.waits], trivial, hso⟩,
        .congr rfl rfl (by simp [hheld]) .rfl .rfl⟩
  | parked k =>
      obtain ⟨⟨_, hfree⟩, h⟩ := Option.ite_none_right_eq_some.mp h
      obtain ⟨rfl, rfl⟩ := Prod.mk.inj (Option.some.inj h)
      exact ⟨hr.congr rfl rfl rfl rfl,
        ⟨by simp [CPc.holdsW], hp.rlock, by simp [CPc.waits], trivial, hso⟩,
        .congr rfl rfl (by simp [hfree]) .rfl .rfl⟩
  | unlockW k =>
      obtain ⟨rfl, rfl⟩ := Prod.mk.inj (Option.some.inj h)
      have hheld : s.wlock = some .consumer := hp.wlock.mpr rfl
      exact ⟨hr.congr rfl rfl rfl rfl, ⟨by simp [CPc.holdsW], hp.rlock, hp.wcond, trivial, hso⟩,
        .congr rfl rfl (by simp [hheld]) .rfl .rfl⟩
  | someR k =>
      obtain ⟨rfl, rfl⟩ := Prod.mk.inj (Option.some.inj h)
      exact .local_ hr hp rfl rfl rfl (fun _ => id) rfl
  | someW k roff =>
      obtain ⟨rfl, rfl⟩ := Prod.mk.inj (Option.some.inj h)
      obtain rfl : roff = s.cb.roff := hat
      have hm := readSome_moves (n := k.len - k.read) hw hle
      have hret := hm.ret
      rw [← hret] at hm
      refine .local_ hr hp rfl rfl rfl (fun _ => id) ⟨hm, ?_, 0, Nat.zero_le _, rfl,
        fun _ hj => absurd hj (Nat.not_lt_zero _)⟩
      rw [hret]
      exact Nat.min_le_right _ _
  | copy k m todo =>
      cases todo with
      | nil =>
          obtain ⟨rfl, rfl⟩ := Prod.mk.inj (Option.some.inj h)
          exact .local_ hr hp rfl rfl rfl (fun _ => id) (ConsAt.copyDone hat)
      | cons x todo =>
          obtain ⟨cell, j⟩ := x
          obtain ⟨rfl, rfl⟩ := Prod.mk.inj (Option.some.inj h)
          obtain ⟨rfl, hat'⟩ := ConsAt.copied hat
          refine ⟨hr, ⟨hp.wlock, hp.rlock, hp.wcond, hat', ?_⟩, .refl s⟩
          simpa only [CPc.sofar, read_set] using hso
  | len1 n =>
      obtain ⟨rfl, rfl⟩ := Prod.mk.inj (Option.some.inj h)
      exact .local_ hr hp rfl rfl rfl (fun _ => id) rfl
  | len2 n roff =>
      obtain ⟨rfl, rfl⟩ := Prod.mk.inj (Option.some.inj h)
      obtain rfl : roff = s.cb.roff := hat
      refine .local_ hr hp rfl rfl rfl (fun _ => id) ?_
      show (if circbufGetLength s.cb < n then circbufGetLength s.cb else n) ≤ circbufGetLength s.cb
      split <;> omega
  | off n =>
      obtain ⟨rfl, rfl⟩ := Prod.mk.inj (Option.some.inj h)
      have hn : n ≤ ByteRing.used s.cb.size s.cb.roff s.cb.woff := hat
      have hlt := ByteRing.used_lt hw hle
      refine .local_ hr hp rfl rfl rfl nofun ⟨hn, ?_, ?_, rfl⟩
      · split <;> omega
      · rw [Done.count, ByteRing.mod_eq_ite (a := s.cb.roff + n) (by omega)]
        split
        · rw [if_neg (by omega), Nat.mod_eq_of_lt (by omega)]
        · rw [if_pos (by omega), Nat.mod_eq_of_lt (by omega)]
  | lockR d roff =>
      obtain ⟨hfree, h⟩ := Option.ite_none_right_eq_some.mp h
      obtain ⟨rfl, rfl⟩ := Prod.mk.inj (Option.some.inj h)
      refine ⟨hr.congr rfl rfl rfl rfl, ⟨hp.wlock, by simp [CPc.holdsR], hp.wcond, ?_, ?_⟩,
        .congr rfl rfl .rfl (by simp [hfree]) .rfl⟩
      · cases d <;> exact ⟨hat.count_le, hat.roff_le, hat.roff_mod, hat.bytes⟩
      · cases d with
        | read k n => exact hso
        | dispose n => nofun
  | storeR d roff =>
      obtain ⟨rfl, rfl⟩ := Prod.mk.inj (Option.some.inj h)
      have hheld : s.rlock = some .consumer := hp.rlock.mpr rfl
      obtain ⟨hring, hlength⟩ := hr.release hat
      refine ⟨hring, ⟨hp.wlock, hp.rlock, hp.wcond, trivial, ?_⟩, ?_⟩
      · cases d with
        | read k n =>
            intro l hl
            obtain rfl := Option.some.inj hl
            rw [ByteMem.read_add, Nat.zero_add, ← List.append_assoc, ← hso _ rfl]
            rfl
        | dispose n => nofun
      · exact
          { size := rfl, woff := rfl, wdone := rfl, data := rfl, produced := rfl
            length_le := by rw [hlength]; exact Nat.sub_le _ _
            roff := fun hprod => by rw [hheld] at hprod; cases hprod
            wlock := .rfl, rlock := .rfl, rcond := .rfl }
  | signalR d =>
      obtain ⟨rfl, rfl⟩ := Prod.mk.inj (Option.some.inj h)
      refine ⟨hr.congr rfl rfl rfl rfl, ⟨hp.wlock, hp.rlock, hp.wcond, trivial, ?_⟩,
        .congr rfl rfl .rfl .rfl (Wait.signal_eq_out _)⟩
      cases d with
      | read k n => exact hso
      | dispose n => nofun
  | unlockR d =>
      obtain ⟨rfl, rfl⟩ := Prod.mk.inj (Option.some.inj h)
      have hheld : s.rlock = some .consumer := hp.rlock.mpr rfl
      cases d with
      | read k n =>
          dsimp only
          split
          · exact ⟨hr.congr rfl rfl rfl rfl,
              ⟨hp.wlock, by simp [CPc.holdsR], hp.wcond, trivial, hso⟩,
              .congr rfl rfl .rfl (by simp [hheld]) .rfl⟩
          · exact ⟨hr.congr rfl rfl rfl rfl,
              ⟨hp.wlock, by simp [CPc.holdsR], hp.wcond, trivial, hso⟩,
              .congr rfl rfl .rfl (by simp [hheld]) .rfl⟩
      | dispose n =>
          exact ⟨hr.congr rfl rfl rfl rfl,
            ⟨hp.wlock, by simp [CPc.holdsR], hp.wcond, trivial, nofun⟩,
            .congr rfl rfl .rfl (by simp [hheld]) .rfl⟩
  | ret k =>
      obtain ⟨rfl, rfl⟩ := Prod.mk.inj (Option.some.inj h)
      exact .local_ hr hp rfl rfl rfl nofun trivial
  | disposed n =>
      obtain ⟨rfl, rfl⟩ := Prod.mk.inj (Option.some.inj h)
      exact .local_ hr hp rfl rfl rfl nofun trivial
  | input1 n =>
      obtain ⟨rfl, rfl⟩ := Prod.mk.inj (Option.some.inj h)
      exact .local_ hr hp rfl rfl rfl nofun rfl
  | input2 n roff =>
      obtain ⟨rfl, rfl⟩ := Prod.mk.inj (Option.some.inj h)
      obtain rfl : roff = s.cb.roff := hat
      refine ⟨⟨hr.size, hr.wf, hr.history, ?_⟩, ⟨hp.wlock, hp.rlock, hp.wcond, trivial, nofun⟩,
        .congr rfl rfl .rfl .rfl .rfl⟩
      intro cell bs hv
      obtain ⟨rfl, rfl⟩ := Prod.mk.inj (Option.some.inj hv)
      rw [ByteMem.length_read]
      obtain ⟨hlive, hfit⟩ := inputSome_fits n hr.wf
      exact ⟨rfl, hlive, hfit, rfl⟩
  | input cell n =>
      obtain ⟨rfl, rfl⟩ := Prod.mk.inj (Option.some.inj h)
      exact .local_ hr hp rfl rfl rfl nofun trivial
  | close =>
      obtain ⟨rfl, rfl⟩ := Prod.mk.inj (Option.some.inj h)
      split <;> exact .local_ hr hp rfl rfl rfl nofun trivial
  | closeLock =>
      obtain ⟨hfree, h⟩ := Option.ite_none_right_eq_some.mp h
      obtain ⟨rfl, rfl⟩ := Prod.mk.inj (Option.some.inj h)
      exact ⟨hr.congr rfl rfl rfl rfl, ⟨hp.wlock, by simp [CPc.holdsR], hp.wcond, trivial, nofun⟩,
        .congr rfl rfl .rfl (by simp [hfree]) .rfl⟩
  | closeStore =>
      obtain ⟨rfl, rfl⟩ := Prod.mk.inj (Option.some.inj h)
      have hheld : s.rlock = some .consumer := hp.rlock.mpr rfl
      refine ⟨⟨hr.size, ⟨hw, hle⟩, hr.history, hr.view⟩,
        ⟨hp.wlock, hp.rlock, hp.wcond, trivial, nofun⟩, ?_⟩
      exact
        { size := rfl, woff := rfl, wdone := rfl, data := rfl, produced := rfl
          length_le := Nat.le_refl _
          roff := fun hprod => by rw [hheld] at hprod; cases hprod
          wlock := .rfl, rlock := .rfl, rcond := .rfl }
  | closeSignal =>
      obtain ⟨rfl, rfl⟩ := Prod.mk.inj (Option.some.inj h)
      exact ⟨hr.congr rfl rfl rfl rfl, ⟨hp.wlock, hp.rlock, hp.wcond, trivial, nofun⟩,
        .congr rfl rfl .rfl .rfl (Wait.signal_eq_out _)⟩
  | closeUnlock =>
      obtain ⟨rfl, rfl⟩ := Prod.mk.inj (Option.some.inj h)
      have hheld : s.rlock = some .consumer := hp.rlock.mpr rfl
      exact ⟨hr.congr rfl rfl rfl rfl, ⟨hp.wlock, by simp [CPc.holdsR], hp.wcond, trivial, nofun⟩,
        .congr rfl rfl .rfl (by simp [hheld]) .rfl⟩
  | closed code =>
      obtain ⟨rfl, rfl⟩ := Prod.mk.inj (Option.some.inj h)
      exact .local_ hr hp rfl rfl rfl nofun trivial

/-- Every step of the consumer. -/
theorem cstep_ok {a : CAct α} {s s' : Shared α} {p p' : CPc α} (hr : RingOk c s)
    (hp : ConsOk s p) (h : cstep a s p = some (s', p')) : ConsStep c s s' p' := by
  cases cstep_cases h with
  | go h => exact cgo_ok hr hp h
  | call r =>
      refine ⟨hr, ⟨?_, ?_, ?_, ?_, ?_⟩, .refl s⟩
      · cases r <;> exact hp.wlock
      · cases r <;> exact hp.rlock
      · cases r <;> exact hp.wcond
      · cases r <;> trivial
      · cases r <;> intro l hl <;>
          first
            | cases hl; done
            | (obtain rfl := Option.some.inj hl; exact (List.append_nil _).symm)
  | spurious hparked =>
      exact ⟨hr.congr rfl rfl rfl rfl,
        ⟨hp.wlock, hp.rlock, by simp [CPc.waits], trivial, hp.sofar⟩,
        .congr rfl rfl .rfl .rfl .rfl⟩

/-! ## Each part survives the other thread -/

theorem ProdFrame.window {s s' : Shared α} (hf : ProdFrame s s') {n : Nat}
    (hn : n ≤ circbufGetLength s.cb) :
    ByteRing.window s'.cb.data s'.cb.size s'.cb.roff n
      = ByteRing.window s.cb.data s.cb.size s.cb.roff n := by
  rw [hf.size, hf.roff]
  exact ByteRing.window_congr fun j hj => hf.live j (by omega)

theorem DoneOk.stable {s s' : Shared α} (hf : ProdFrame s s') {d : Done α} {roff : Nat}
    (hd : DoneOk s d roff) : DoneOk s' d roff where
  count_le := hd.count_le.trans hf.length_le
  roff_le := by rw [hf.size]; exact hd.roff_le
  roff_mod := by rw [hf.size, hf.roff]; exact hd.roff_mod
  bytes := by
    cases d with
    | read k n => exact hd.bytes.trans (hf.window hd.count_le).symm
    | dispose n => rfl

/-- The consumer's part, under a step of the producer. -/
theorem ConsOk.stable {s s' : Shared α} (hf : ProdFrame s s') {p : CPc α} (hc : ConsOk s p) :
    ConsOk s' p where
  wlock := hf.wlock.trans hc.wlock
  rlock := hf.rlock.trans hc.rlock
  wcond := hf.wcond.trans hc.wcond
  at_ := by
    have hat := hc.at_
    have hwoff : p.holdsW = true → s'.cb.woff = s.cb.woff ∧ s'.cb.wdone = s.cb.wdone :=
      fun h => hf.woff (hc.wlock.mpr h)
    cases p with
    | loopW k roff => exact hat.trans hf.roff.symm
    | empty2 k roff => exact hat.trans hf.roff.symm
    | empty3 k => exact hf.roff.trans (hat.trans (hwoff rfl).1.symm)
    | wait k =>
        exact ⟨hf.roff.trans (hat.1.trans (hwoff rfl).1.symm), (hwoff rfl).2.trans hat.2⟩
    | someW k roff => exact hat.trans hf.roff.symm
    | copy k m todo =>
        obtain ⟨hm, hfit, i, hi, htodo, hdone⟩ := hat
        refine ⟨by rwa [hf.size, hf.roff], hfit.trans hf.length_le, i, hi, htodo, ?_⟩
        intro j hj
        rw [hdone j hj, hf.size, hf.roff, hf.live j (by omega)]
    | len2 n roff => exact hat.trans hf.roff.symm
    | off n => exact Nat.le_trans hat hf.length_le
    | lockR d roff => exact DoneOk.stable hf hat
    | storeR d roff => exact DoneOk.stable hf hat
    | input2 n roff => exact hat.trans hf.roff.symm
    | _ => trivial
  sofar := fun l hl => hf.released.trans (hc.sofar l hl)

theorem ConsFrame.free_le {s s' : Shared α} (hf : ConsFrame s s') :
    s.cb.free ≤ s'.cb.free := by
  have := hf.length_le
  rw [Circbuf.free, Circbuf.free, hf.size]
  omega

/-- The producer's part, under a step of the consumer. -/
theorem ProdOk.stable {s s' : Shared α} (hf : ConsFrame s s') {p : PPc α} (hp : ProdOk s p) :
    ProdOk s' p where
  wlock := hf.wlock.trans hp.wlock
  rlock := hf.rlock.trans hp.rlock
  rcond := hf.rcond.trans hp.rcond
  at_ := by
    have hat := hp.at_
    have hfree := hf.free_le
    have hroff : p.holdsR = true → s'.cb.roff = s.cb.roff ∧ s'.cb.rdone = s.cb.rdone :=
      fun h => hf.roff (hp.rlock.mpr h)
    have hfull : p.holdsR = true → circbufGetLength s'.cb = circbufGetLength s.cb := fun h => by
      rw [circbufGetLength_eq, circbufGetLength_eq, hf.size, hf.woff, (hroff h).1]
    cases p with
    | full2 k woff => exact hat.trans hf.woff.symm
    | full3 k => show s'.cb.woff + 1 ≠ s'.cb.roff; rw [hf.woff, (hroff rfl).1]; exact hat
    | full4 k => show s'.cb.woff + 1 = s'.cb.size; rw [hf.woff, hf.size]; exact hat
    | full5 k => exact (hfull rfl).trans (hat.trans (by rw [hf.size]))
    | wait k =>
        exact ⟨(hfull rfl).trans (hat.1.trans (by rw [hf.size])), (hroff rfl).2.trans hat.2⟩
    | someR k woff => exact hat.trans hf.woff.symm
    | copy k b m todo =>
        obtain ⟨hm, hoff, hfit, hdone⟩ := hat
        show _ ∧ _ ∧ _ ∧ _
        rw [hf.size, hf.woff, hf.data]
        exact ⟨hm, hoff, hfit.trans hfree, hdone⟩
    | writer k woff total got todo =>
        obtain ⟨hwoff, hlen, hcells, n, ht, hfit⟩ := hat
        show _ ∧ _ ∧ _ ∧ _
        rw [hf.size, hf.woff, hf.data]
        exact ⟨hwoff, hlen, hcells, n, ht, hfit.trans hfree⟩
    | lockW k woff n got =>
        show _ ∧ _ ∧ _ ∧ _
        rw [hf.size, hf.woff, hf.data]
        exact ⟨hat.1, hat.2.1.trans hfree, hat.2.2⟩
    | storeW k woff n got =>
        show _ ∧ _ ∧ _ ∧ _
        rw [hf.size, hf.woff, hf.data]
        exact ⟨hat.1, hat.2.1.trans hfree, hat.2.2⟩
    | _ => trivial

/-! ## Runs -/

theorem Inv.start {env : InitEnv α} {cb : Circbuf α} (hinit : circbufInit env c = some cb)
    (halloc : env.Allocatable (c + 1)) : Inv c ⟨.fresh cb, .idle, .idle⟩ where
  ring :=
    have hrep := init_represents hinit halloc
    ⟨hrep.size, hrep.wf, hrep.q, nofun⟩
  prod := ⟨by simp [Shared.fresh, PPc.holdsW], by simp [Shared.fresh, PPc.holdsR],
    by simp [Shared.fresh, PPc.waits], trivial⟩
  cons := ⟨by simp [Shared.fresh, CPc.holdsW], by simp [Shared.fresh, CPc.holdsR],
    by simp [Shared.fresh, CPc.waits], trivial, nofun⟩

/-- A step of the system is a step of one of its threads. -/
theorem sysStep_cases {a : Act α} {x x' : Sys α} (h : sysStep a x = some x') :
    (∃ b, a = .prod b ∧ pstep b x.sh x.p = some (x'.sh, x'.p) ∧ x'.c = x.c)
      ∨ (∃ b, a = .cons b ∧ cstep b x.sh x.c = some (x'.sh, x'.c) ∧ x'.p = x.p) := by
  cases a with
  | prod b =>
      obtain ⟨⟨sh, p⟩, hb, rfl⟩ := Option.map_eq_some_iff.mp h
      exact .inl ⟨b, rfl, hb, rfl⟩
  | cons b =>
      obtain ⟨⟨sh, q⟩, hb, rfl⟩ := Option.map_eq_some_iff.mp h
      exact .inr ⟨b, rfl, hb, rfl⟩

theorem Inv.step {a : Act α} {x x' : Sys α} (hx : Inv c x) (h : sysStep a x = some x') :
    Inv c x' := by
  rcases sysStep_cases h with ⟨b, rfl, hb, hc⟩ | ⟨b, rfl, hb, hp⟩
  · obtain ⟨hring, hprod, hframe⟩ := pstep_ok hx.ring hx.prod hb
    exact ⟨hring, hprod, by rw [hc]; exact hx.cons.stable hframe⟩
  · obtain ⟨hring, hcons, hframe⟩ := cstep_ok hx.ring hx.cons hb
    exact ⟨hring, by rw [hp]; exact hx.prod.stable hframe, hcons⟩

theorem inv_of_reach {ok : Sys α → Act α → Prop} {x : Sys α} (h : (spsc α c).Reach ok x) :
    Inv c x :=
  h.invariant
    (fun _ ⟨_, _, hinit, halloc, hx⟩ => hx ▸ .start hinit halloc)
    (fun _ _ _ _ hx _ hstep => hx.step hstep)

/-! ## Safety -/

/-- Cell `i` holds a published byte that has not been released. -/
def Circbuf.Live (cb : Circbuf α) (i : Nat) : Prop :=
  ∃ j < circbufGetLength cb, i = (cb.roff + j) % cb.size

/-- The cell that a step of the producer stores into. -/
def PAct.target : PAct α → PPc α → Option Nat
  | .go, .copy _ _ _ ((cell, _) :: _) => some cell
  | .store i _, .writer _ _ _ _ (r :: _) => some (r.there + i)
  | _, _ => none

/-- The bytes that a read has copied and not released yet. -/
def CPc.copied : CPc α → List α
  | .copy k m todo => k.buf.read k.read (m.ret - todo.length)
  | .lockR (.read k n) _ | .storeR (.read k n) _ => k.buf.read k.read n
  | _ => []

/-- A free cell is not live. -/
theorem not_live_free {cb : Circbuf α} (hwf : cb.Wf) {i : Nat} (hi : i < cb.free) :
    ¬ cb.Live ((cb.woff + i) % cb.size) := by
  rintro ⟨j, hj, heq⟩
  have hlt := ByteRing.used_lt hwf.woff_lt hwf.roff_le
  rw [Circbuf.free] at hi
  rw [circbufGetLength_eq] at hi hj
  rw [← ByteRing.cell_used hwf.woff_lt hwf.roff_le, Nat.mod_add_mod, Nat.add_assoc] at heq
  exact ByteRing.cell_ne (by omega) (by omega) heq.symm

/-- The producer stores into free cells. -/
theorem target_free {s : Shared α} {p : PPc α} (hp : ProdOk s p) {a : PAct α} {s' : Shared α}
    {p' : PPc α} (h : pstep a s p = some (s', p')) {cell : Nat} (ht : a.target p = some cell) :
    ∃ i < s.cb.free, cell = (s.cb.woff + i) % s.cb.size := by
  cases pstep_cases h with
  | go h =>
      cases p with
      | copy k b m todo =>
          obtain ⟨hm, _, hfit, i, hi, htodo, _⟩ := hp.at_
          cases todo with
          | nil => cases ht
          | cons x todo =>
              obtain ⟨cell', j⟩ := x
              obtain rfl := Option.some.inj ht
              obtain ⟨hlt, rfl, -, -⟩ := hm.next htodo
              exact ⟨i, by omega, rfl⟩
      | _ => cases ht
  | @store k woff total i got r todo b hi =>
      obtain rfl := Option.some.inj ht
      obtain ⟨hwoff, -, -, n, htiles, hfit⟩ := hp.at_
      obtain ⟨-, -, hin, hcell⟩ := writer_cell hwoff htiles hi
      exact ⟨total + i, by omega, hcell⟩
  | call r => cases ht
  | wret hn => cases ht
  | spurious hparked => cases ht

/-- What has been copied continues what has been released. -/
theorem copied_unread {s : Shared α} {p : CPc α} (hc : ConsOk s p) :
    p.copied <+: s.cb.unread := by
  have htake : ∀ {n}, n ≤ circbufGetLength s.cb →
      ByteRing.window s.cb.data s.cb.size s.cb.roff n <+: s.cb.unread := fun {n} hn => by
    rw [Circbuf.unread, ← ByteRing.take_window _ _ _ hn]
    exact List.take_prefix _ _
  have hat := hc.at_
  cases p with
  | copy k m todo =>
      obtain ⟨hm, hfit, i, hi, htodo, hdone⟩ := hat
      have hleft : m.ret - todo.length = i := by
        rw [htodo, List.length_drop, hm.cells, List.length_map, List.length_range]
        omega
      have hcopied : k.buf.read k.read i = ByteRing.window s.cb.data s.cb.size s.cb.roff i :=
        List.map_congr_left fun j hj => hdone j (List.mem_range.mp hj)
      rw [CPc.copied, hleft, hcopied]
      exact htake (hi.trans hfit)
  | lockR d roff | storeR d roff =>
      cases d with
      | read k n =>
          have hbytes : k.buf.read k.read n = _ := hat.bytes
          rw [CPc.copied, hbytes]
          exact htake hat.count_le
      | dispose n => exact List.nil_prefix
  | _ => exact List.nil_prefix

/-- **One producer and one consumer are safe.** In every reachable state:
what has been consumed is a prefix of what has been produced; at most `c`
bytes are published and not consumed; a step of the producer stores into
no live cell and leaves the live cells as they are; and the cells that
the consumer is copying from or has been pointed at are live, with the
bytes they had. -/
theorem spsc_safe (c : Nat) (x : Sys α) (h : (spsc α c).Reach Lts.Any x) :
    x.sh.released ++ x.c.copied <+: x.sh.produced
      ∧ x.sh.produced.length ≤ x.sh.released.length + c
      ∧ (∀ a x', (spsc α c).step (.prod a) x = some x' → ∀ i, x.sh.cb.Live i →
          a.target x.p ≠ some i ∧ x'.sh.cb.data i = x.sh.cb.data i)
      ∧ (∀ k m todo, x.c = .copy k m todo → ∀ p ∈ m.cells, x.sh.cb.Live p.1)
      ∧ ∀ cell bs, x.sh.view = some (cell, bs) →
          x.sh.cb.data.read cell bs.length = bs ∧ ∀ j < bs.length, x.sh.cb.Live (cell + j) := by
  obtain ⟨hring, hprod, hcons⟩ := inv_of_reach h
  have hlt := ByteRing.used_lt hring.wf.woff_lt hring.wf.roff_le
  refine ⟨?_, ?_, ?_, ?_, ?_⟩
  · rw [hring.history]
    exact (List.prefix_append_right_inj _).mpr (copied_unread hcons)
  · have hsize := hring.size
    rw [hring.history, List.length_append, length_unread, circbufGetLength_eq]
    omega
  · rintro a x' hstep i hlive
    obtain ⟨⟨s', p'⟩, hp, rfl⟩ := Option.map_eq_some_iff.mp hstep
    constructor
    · intro ht
      obtain ⟨j, hj, rfl⟩ := target_free hprod hp ht
      exact not_live_free hring.wf hj hlive
    · obtain ⟨j, hj, rfl⟩ := hlive
      exact (pstep_ok hring hprod hp).frame.live j hj
  · rintro k m todo hc p hp
    have hat := hcons.at_
    rw [hc] at hat
    obtain ⟨hm, hfit, -⟩ := hat
    rw [hm.cells] at hp
    obtain ⟨j, hj, rfl⟩ := List.mem_map.mp hp
    have := List.mem_range.mp hj
    exact ⟨j, by omega, rfl⟩
  · intro cell bs hview
    obtain ⟨rfl, hlen, hfit, hbs⟩ := hring.view cell bs hview
    refine ⟨hbs, fun j hj => ⟨j, by omega, ?_⟩⟩
    exact (Nat.mod_eq_of_lt (by omega)).symm

/-- A byte is produced; one read of it is over, and `circbuf_input_some`
points at the next. -/
theorem spsc_safe_run :
    ∃ x : Sys Nat, x.sh.released = [7] ∧ x.sh.view = some (1, [8])
      ∧ x.sh.cb.data.read 1 1 = [8] ∧ [7] <+: x.sh.produced := by
  let acts : List (Act Nat) :=
    .prod (.call (.writeSome (fun j => 7 + j) 2)) :: List.replicate 9 (.prod .go)
      ++ .cons (.call (.readSome (fun _ => 0) 1)) :: List.replicate 9 (.cons .go)
      ++ .cons (.call (.inputSome 1)) :: List.replicate 2 (.cons .go)
  have hrun : ∃ x, (spsc Nat 2).run acts ⟨.fresh ⟨fun _ => 0, 3, 0, 0, false, false⟩, .idle, .idle⟩
      = some x ∧ x.sh.released = [7] ∧ x.sh.view = some (1, [8]) ∧ x.c.copied = [] :=
    ⟨_, rfl, rfl, rfl, rfl⟩
  obtain ⟨x, hrun, hrel, hview, hcopied⟩ := hrun
  have hreach : (spsc Nat 2).Reach Lts.Any x :=
    .run (fun _ _ _ => trivial) (.init ⟨.ample 0, _, rfl, by decide, rfl⟩) hrun
  obtain ⟨hsub, -, -, -, hbytes⟩ := spsc_safe 2 x hreach
  rw [hrel, hcopied] at hsub
  exact ⟨x, hrel, hview, (hbytes 1 [8] hview).1, hsub⟩

end Streamlike
