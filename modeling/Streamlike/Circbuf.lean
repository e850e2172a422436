import Mathlib.Algebra.Group.Nat.Defs
import Streamlike.Ring

/-!
# The circular buffer, one call at a time

`util/circbuf.c` without its threads: the structure, the three copy
routines and the calls built on them, each run to its end.

The copy routines `read_some_` and `write_some_` decide which regions to
copy from the offsets alone, so `readSome_` and `writeSome_` return the
`memcpy` calls they issue, in order, next to the new offset and the
return value. `write_some2_` asks a writer for the bytes instead;
`writeSome2_calls` is the list of regions it asks for as long as no
writer call comes up short, and `writeSome2_` makes the calls. The
two-thread model of `CircbufThreads` issues the same copies and the same
writer calls one byte at a time.

Cells hold bytes of any type `α`: nothing here looks at one.
-/

namespace Streamlike

variable {α σ : Type}

/-- `struct circbuf_s` without its locks and condition variables. -/
structure Circbuf (α : Type) where
  data : ByteMem α
  size : Nat
  woff : Nat
  roff : Nat
  wdone : Bool
  rdone : Bool

/-- What `circbuf_init` gets from its environment: the width of `size_t`,
the two allocations (fresh memory has any contents) and whether each
`pthread` initialisation succeeds. -/
structure InitEnv (α : Type) where
  width : Nat
  mallocCbuf : Bool
  mallocData : Nat → Option (ByteMem α)
  rcondInit : Bool
  wcondInit : Bool
  rlockInit : Bool
  wlockInit : Bool

/-- A request of `n` bytes is at most `PTRDIFF_MAX`. -/
def InitEnv.Allocatable (env : InitEnv α) (n : Nat) : Prop :=
  n < 2 ^ (env.width - 1)

instance (env : InitEnv α) (n : Nat) : Decidable (env.Allocatable n) :=
  inferInstanceAs (Decidable (n < 2 ^ (env.width - 1)))

/-- A 64-bit environment in which everything succeeds and fresh memory
holds `b`. -/
def InitEnv.ample (b : α) : InitEnv α :=
  ⟨64, true, fun _ => some fun _ => b, true, true, true, true⟩

/-- `circbuf_init`. The increment is on a `size_t`. -/
def circbufInit (env : InitEnv α) (cbuf_size : Nat) : Option (Circbuf α) :=
  if cbuf_size = 0 then none
  else
    let cbuf_size := (cbuf_size + 1) % 2 ^ env.width
    if !env.mallocCbuf then none
    else
      match env.mallocData cbuf_size with
      | none => none
      | some data =>
          if env.rcondInit && env.wcondInit && env.rlockInit && env.wlockInit then
            some { data, size := cbuf_size, woff := 0, roff := 0,
                   wdone := false, rdone := false }
          else none

/-- What `circbuf_init` returns: the increment's size, at the offset 0, and
open on both sides. -/
theorem circbufInit_eq {env : InitEnv α} {c : Nat} {cb : Circbuf α}
    (h : circbufInit env c = some cb) :
    0 < c ∧ ∃ data, env.mallocData ((c + 1) % 2 ^ env.width) = some data
      ∧ cb = ⟨data, (c + 1) % 2 ^ env.width, 0, 0, false, false⟩ := by
  unfold circbufInit at h
  cases hdata : env.mallocData ((c + 1) % 2 ^ env.width) with
  | none => simp [hdata] at h
  | some data =>
      simp only [hdata] at h
      split_ifs at h with hsize hcbuf hinit
      obtain rfl := Option.some.inj h
      exact ⟨Nat.pos_of_ne_zero hsize, data, rfl, rfl⟩

/-- A buffer that has been created is open on both sides, and its capacity
is positive. -/
theorem circbufInit_open {env : InitEnv α} {c : Nat} {cb : Circbuf α}
    (h : circbufInit env c = some cb) : 0 < c ∧ cb.rdone = false ∧ cb.wdone = false := by
  obtain ⟨hpos, data, -, rfl⟩ := circbufInit_eq h
  exact ⟨hpos, rfl, rfl⟩

def circbufReset (cb : Circbuf α) : Circbuf α :=
  { cb with rdone := false, wdone := false, woff := 0, roff := 0 }

def circbufGetSize (cb : Circbuf α) : Nat := cb.size

def circbufGetLength (cb : Circbuf α) : Nat :=
  let roff := cb.roff
  let woff := cb.woff
  if woff ≥ roff then woff - roff else cb.size - roff + woff

def circbufIsReadClosed (cb : Circbuf α) : Bool := cb.rdone

def circbufIsWriteClosed (cb : Circbuf α) : Bool := cb.wdone

/-! ## The copy routines -/

/-- One `memcpy` between the cells from `cell` and the caller's buffer
from `buf`. -/
structure Copy where
  cell : Nat
  buf : Nat
  len : Nat
deriving Repr, DecidableEq

/-- What a copy routine does: its copies, in order, the offset it leaves
and its return value. -/
structure Moved where
  copies : List Copy
  off : Nat
  ret : Nat
deriving Repr, DecidableEq

/-- The copy byte by byte: pairs of a cell and an index of the buffer. -/
def Copy.cells (c : Copy) : List (Nat × Nat) :=
  (List.range c.len).map fun j => (c.cell + j, c.buf + j)

def Moved.cells (m : Moved) : List (Nat × Nat) := m.copies.flatMap Copy.cells

/-- `read_some_`: the copies out of the cells. -/
def readSome_ (cbuf_size buf_len roff woff : Nat) : Moved :=
  if roff = woff then ⟨[], roff, 0⟩
  else if roff < woff then
    let avail := woff - roff
    if avail ≥ buf_len then ⟨[⟨roff, 0, buf_len⟩], roff + buf_len, buf_len⟩
    else ⟨[⟨roff, 0, avail⟩], roff + avail, avail⟩
  else
    let avail := cbuf_size - roff
    if avail ≥ buf_len then ⟨[⟨roff, 0, buf_len⟩], roff + buf_len, buf_len⟩
    else if woff > buf_len - avail then
      ⟨[⟨roff, 0, avail⟩, ⟨0, avail, buf_len - avail⟩], buf_len - avail, buf_len⟩
    else ⟨[⟨roff, 0, avail⟩, ⟨0, avail, woff⟩], woff, avail + woff⟩

/-- `write_some_`: the copies into the cells. -/
def writeSome_ (cbuf_size buf_len roff woff : Nat) : Moved :=
  if woff + 1 = roff ∨ (woff = cbuf_size - 1 ∧ roff = 0) then ⟨[], woff, 0⟩
  else if woff < roff then
    let avail := roff - woff - 1
    if avail ≥ buf_len then ⟨[⟨woff, 0, buf_len⟩], woff + buf_len, buf_len⟩
    else ⟨[⟨woff, 0, avail⟩], woff + avail, avail⟩
  else
    let avail := cbuf_size - woff
    if avail > buf_len then ⟨[⟨woff, 0, buf_len⟩], woff + buf_len, buf_len⟩
    else if roff = 0 then ⟨[⟨woff, 0, avail - 1⟩], woff + (avail - 1), avail - 1⟩
    else if roff > buf_len - avail then
      ⟨[⟨woff, 0, avail⟩, ⟨0, avail, buf_len - avail⟩], buf_len - avail, buf_len⟩
    else ⟨[⟨woff, 0, avail⟩, ⟨0, avail, roff - 1⟩], roff - 1, avail + roff - 1⟩

/-- A region handed to a writer: its first cell and its length. -/
structure Region where
  there : Nat
  length : Nat
deriving Repr, DecidableEq

/-- The writer calls of `write_some2_`, in order. A short one ends the
function, so the later ones are made only after full ones. -/
def writeSome2_calls (cbuf_size write_len roff woff : Nat) : List Region :=
  if woff + 1 = roff ∨ (woff = cbuf_size - 1 ∧ roff = 0) then []
  else if woff < roff then
    let avail := roff - woff - 1
    if avail ≥ write_len then [⟨woff, write_len⟩] else [⟨woff, avail⟩]
  else
    let avail := cbuf_size - woff
    if avail > write_len then [⟨woff, write_len⟩]
    else if roff = 0 then [⟨woff, avail - 1⟩]
    else if roff > write_len - avail then [⟨woff, avail⟩, ⟨0, write_len - avail⟩]
    else [⟨woff, avail⟩, ⟨0, roff - 1⟩]

/-- A `circbuf_write_cb_t`: from its context and the region it is given
to the region's new contents, the count it returns and its context. It
may leave anything in the region, but stays inside it and returns at most
the length it was asked for. -/
structure Writer (σ α : Type) where
  call : σ → List α → List α × Nat × σ
  length_call : ∀ s r, (call s r).1.length = r.length
  ret_le : ∀ s r, (call s r).2.1 ≤ r.length

/-- The variables of `write_some2_`. `eof` is the caller's flag, `none`
for a null pointer; `got` records the bytes the writer has delivered. -/
structure Fetch (σ α : Type) where
  data : ByteMem α
  ctx : σ
  woff : Nat
  total : Nat
  eof : Option Bool
  got : List α

/-- One writer call of `WRITE_AND_RETURN_IF_EOF_`: what it returned and the
variables after it. -/
def Fetch.ask (w : Writer σ α) (cbuf_size : Nat) (r : Region) (f : Fetch σ α) :
    Nat × Fetch σ α :=
  let out := w.call f.ctx (f.data.read r.there r.length)
  let written := out.2.1
  (written,
   { data := f.data.write r.there out.1
     ctx := out.2.2
     woff := (f.woff + written) % cbuf_size
     total := f.total + written
     eof := if written < r.length then f.eof.map fun _ => true else f.eof
     got := f.got ++ out.1.take written })

/-- The writer calls in order; a short one returns. -/
def writeAndReturn_ (w : Writer σ α) (cbuf_size : Nat) :
    List Region → Fetch σ α → Fetch σ α
  | [], f => f
  | r :: rest, f =>
      let (written, f') := f.ask w cbuf_size r
      if written < r.length then f' else writeAndReturn_ w cbuf_size rest f'

/-- `write_some2_`. -/
def writeSome2_ (w : Writer σ α) (data : ByteMem α) (cbuf_size : Nat) (ctx : σ)
    (write_len roff woff : Nat) (eof : Option Bool) : Fetch σ α :=
  writeAndReturn_ w cbuf_size (writeSome2_calls cbuf_size write_len roff woff)
    { data, ctx, woff, total := 0, eof, got := [] }

/-! ## The calls -/

/-- `circbuf_read_some`: the buffer, the caller's memory and the count. -/
def circbufReadSome (cb : Circbuf α) (buf : ByteMem α) (buf_len : Nat) :
    Circbuf α × ByteMem α × Nat :=
  let m := readSome_ cb.size buf_len cb.roff cb.woff
  ({ cb with roff := m.off },
   m.copies.foldl (fun b c => b.memcpy c.buf cb.data c.cell c.len) buf, m.ret)

/-- `circbuf_input_some`: the cell pointed at and the count. -/
def circbufInputSome (cb : Circbuf α) (buf_len : Nat) : Nat × Nat :=
  let roff := cb.roff
  let woff := cb.woff
  (roff,
   if woff < roff then if cb.size - roff > buf_len then buf_len else cb.size - roff
   else if woff - roff > buf_len then buf_len else woff - roff)

/-- `circbuf_dispose_some`. -/
def circbufDisposeSome (cb : Circbuf α) (len : Nat) : Circbuf α × Nat :=
  let cbuf_len := circbufGetLength cb
  let len := if cbuf_len < len then cbuf_len else len
  let roff := cb.roff + len
  let roff := if roff ≥ cb.size then roff - cb.size else roff
  ({ cb with roff }, len)

/-- `circbuf_write_some`. -/
def circbufWriteSome (cb : Circbuf α) (buf : ByteMem α) (buf_len : Nat) :
    Circbuf α × Nat :=
  let m := writeSome_ cb.size buf_len cb.roff cb.woff
  ({ cb with
     data := m.copies.foldl (fun d c => d.memcpy c.cell buf c.buf c.len) cb.data
     woff := m.off }, m.ret)

/-- `circbuf_write_some2`: the buffer and the variables of `write_some2_`
when it returned; the count is `total`. -/
def circbufWriteSome2 (cb : Circbuf α) (w : Writer σ α) (ctx : σ) (len : Nat)
    (eof : Option Bool) : Circbuf α × Fetch σ α :=
  let f := writeSome2_ w cb.data cb.size ctx len cb.roff cb.woff eof
  ({ cb with data := f.data, woff := f.woff }, f)

/-! ## What the copy routines do

One fact for each routine, in terms of the used part of the ring: how
many bytes it moves, that byte `j` of the buffer meets the `j`-th cell of
the used (or free) part, and where the offset ends. -/

/-- The offsets are inside the ring. A read can leave `roff = size`. -/
structure Circbuf.Wf (cb : Circbuf α) : Prop where
  woff_lt : cb.woff < cb.size
  roff_le : cb.roff ≤ cb.size

/-- The unread bytes, oldest first. -/
def Circbuf.unread (cb : Circbuf α) : List α :=
  ByteRing.window cb.data cb.size cb.roff (circbufGetLength cb)

theorem circbufGetLength_eq (cb : Circbuf α) :
    circbufGetLength cb = ByteRing.used cb.size cb.roff cb.woff := rfl

@[simp] theorem length_unread (cb : Circbuf α) :
    cb.unread.length = circbufGetLength cb := by
  simp [Circbuf.unread]

/-- The effect of a copy routine that moves `n` bytes between the buffer
and the ring cells from `off`. -/
structure Moved.Moves (m : Moved) (size off n : Nat) : Prop where
  ret : m.ret = n
  cells : m.cells = (List.range n).map fun j => ((off + j) % size, j)
  off_le : m.off ≤ size
  off_mod : m.off % size = (off + n) % size

theorem cells_single {size off k : Nat} (h : off + k ≤ size) :
    Copy.cells ⟨off, 0, k⟩ = (List.range k).map fun j => ((off + j) % size, j) := by
  refine List.map_congr_left fun j hj => ?_
  have := List.mem_range.mp hj
  rw [Nat.mod_eq_of_lt (by dsimp only at this; omega), Nat.zero_add]

/-- Nothing to move. -/
theorem Moved.Moves.none {size off : Nat} (h : off ≤ size) :
    (⟨[], off, 0⟩ : Moved).Moves size off 0 :=
  ⟨rfl, rfl, h, rfl⟩

/-- A single copy inside the ring. -/
theorem Moved.Moves.single {size off k : Nat} (h : off + k ≤ size) :
    (⟨[⟨off, 0, k⟩], off + k, k⟩ : Moved).Moves size off k where
  ret := rfl
  cells := by rw [Moved.cells, List.flatMap_singleton, cells_single h]
  off_le := h
  off_mod := rfl

/-- A copy up to the end of the ring and one from its beginning. -/
theorem Moved.Moves.wrapped {size off k n : Nat} (h : off ≤ size) (hk : k < size)
    (hn : n = size - off + k) :
    (⟨[⟨off, 0, size - off⟩, ⟨0, size - off, k⟩], k, n⟩ : Moved).Moves size off n where
  ret := rfl
  cells := by
    subst hn
    simp only [Moved.cells, List.flatMap_cons, List.flatMap_nil, List.append_nil]
    rw [cells_single (Nat.add_sub_of_le h).le, List.range_add, List.map_append, List.map_map]
    congr 1
    refine List.map_congr_left fun j hj => ?_
    have hjk : j < k := List.mem_range.mp hj
    have hmod : (off + (size - off + j)) % size = j := by
      rw [show off + (size - off + j) = size + j by omega, Nat.add_mod_left,
        Nat.mod_eq_of_lt (by omega)]
    simp [hmod]
  off_le := hk.le
  off_mod := by
    rw [show off + n = size + k by omega, Nat.add_mod_left]

/-- The copies that move `n` ring cells from `off`: none, one inside the
ring, or one up to its end and one from its beginning. -/
inductive Moved.Around (size off : Nat) : Moved → Nat → Prop
  | none (h : off ≤ size) : Around size off ⟨[], off, 0⟩ 0
  | single {k : Nat} (h : off + k ≤ size) : Around size off ⟨[⟨off, 0, k⟩], off + k, k⟩ k
  | wrapped {k n : Nat} (h : off ≤ size) (hk : k < size) (hn : n = size - off + k) :
      Around size off ⟨[⟨off, 0, size - off⟩, ⟨0, size - off, k⟩], k, n⟩ n

theorem Moved.Around.moves {m : Moved} {size off n : Nat} (h : m.Around size off n) :
    m.Moves size off n := by
  cases h with
  | none h => exact .none h
  | single h => exact .single h
  | wrapped h hk hn => exact .wrapped h hk hn

theorem readSome_around {size n roff woff : Nat} (hw : woff < size) (hr : roff ≤ size) :
    (readSome_ size n roff woff).Around size roff (min n (ByteRing.used size roff woff)) := by
  unfold readSome_
  dsimp only
  split
  · next heq =>
    rw [heq, ByteRing.used_self, Nat.min_zero]
    exact .none hw.le
  · next hne =>
    split
    · next hlt =>
      rw [ByteRing.used_of_le hlt.le]
      split
      · next hle => rw [Nat.min_eq_left hle]; exact .single (by omega)
      · next hgt => rw [Nat.min_eq_right (by omega)]; exact .single (by omega)
    · next hge =>
      rw [ByteRing.used_of_lt (by omega)]
      split
      · next hle => rw [Nat.min_eq_left (by omega)]; exact .single (by omega)
      · next hgt =>
        split
        · next hwoff =>
          rw [Nat.min_eq_left (by omega)]
          exact .wrapped hr (by omega) (by omega)
        · next hwoff =>
          rw [Nat.min_eq_right (by omega)]
          exact .wrapped hr hw rfl

theorem readSome_moves {size n roff woff : Nat} (hw : woff < size) (hr : roff ≤ size) :
    (readSome_ size n roff woff).Moves size roff (min n (ByteRing.used size roff woff)) :=
  (readSome_around hw hr).moves

/-- The full test of the write side, in terms of the used part. -/
theorem full_iff {size roff woff : Nat} (hw : woff < size) (hr : roff ≤ size) :
    (woff + 1 = roff ∨ (woff = size - 1 ∧ roff = 0))
      ↔ ByteRing.used size roff woff = size - 1 := by
  unfold ByteRing.used
  split <;> omega

theorem writeSome_around {size n roff woff : Nat} (hw : woff < size) (hr : roff ≤ size) :
    (writeSome_ size n roff woff).Around size woff
      (min n (size - 1 - ByteRing.used size roff woff)) := by
  unfold writeSome_
  dsimp only
  split
  · next hfull =>
    rw [(full_iff hw hr).mp hfull, Nat.sub_self, Nat.min_zero]
    exact .none hw.le
  · next hfree =>
    split
    · next hlt =>
      rw [ByteRing.used_of_lt hlt,
        show size - 1 - (size - roff + woff) = roff - woff - 1 by omega]
      split
      · next hle => rw [Nat.min_eq_left hle]; exact .single (by omega)
      · next hgt => rw [Nat.min_eq_right (by omega)]; exact .single (by omega)
    · next hge =>
      rw [ByteRing.used_of_le (by omega)]
      split
      · next hgt => rw [Nat.min_eq_left (by omega)]; exact .single (by omega)
      · next hle =>
        split
        · next hzero =>
          rw [Nat.min_eq_right (by omega),
            show size - 1 - (woff - roff) = size - woff - 1 by omega]
          exact .single (by omega)
        · next hroff =>
          split
          · next hfits =>
            rw [Nat.min_eq_left (by omega)]
            exact .wrapped hw.le (by omega) (by omega)
          · next hshort =>
            rw [Nat.min_eq_right (by omega),
              show size - woff + roff - 1 = size - 1 - (woff - roff) by omega]
            exact .wrapped hw.le (by omega) (by omega)

theorem writeSome_moves {size n roff woff : Nat} (hw : woff < size) (hr : roff ≤ size) :
    (writeSome_ size n roff woff).Moves size woff
      (min n (size - 1 - ByteRing.used size roff woff)) :=
  (writeSome_around hw hr).moves

/-- The producer, unlike the consumer, never leaves its offset at the end. -/
theorem writeSome_off_lt {size n roff woff : Nat} (hw : woff < size) (hr : roff ≤ size) :
    (writeSome_ size n roff woff).off < size := by
  unfold writeSome_
  dsimp only
  split_ifs <;> dsimp only <;> omega

/-! ## What the writer calls do -/

/-- Regions that tile `n` ring cells from `off`, each inside the ring. -/
inductive Tiles (size : Nat) : Nat → List Region → Nat → Prop
  | nil {off : Nat} : Tiles size off [] 0
  | cons {r : Region} {rest : List Region} {n : Nat} (hfit : r.there + r.length ≤ size)
      (hrest : Tiles size ((r.there + r.length) % size) rest n) :
      Tiles size r.there (r :: rest) (r.length + n)

theorem Tiles.single {size off k : Nat} (h : off + k ≤ size) :
    Tiles size off [⟨off, k⟩] k :=
  .cons (r := ⟨off, k⟩) h .nil

/-- The two regions of a wrapped write. -/
theorem Tiles.wrapped {size off k n : Nat} (h : off ≤ size) (hk : k < size)
    (hn : n = size - off + k) : Tiles size off [⟨off, size - off⟩, ⟨0, k⟩] n := by
  subst hn
  refine .cons (r := ⟨off, size - off⟩) (by dsimp only; omega) ?_
  have hend : (off + (size - off)) % size = 0 := by
    rw [Nat.add_sub_of_le h, Nat.mod_self]
  rw [hend]
  exact .single (by omega)

/-- The cells of a copy. -/
def Copy.region (c : Copy) : Region := ⟨c.cell, c.len⟩

/-- `write_some2_` asks for the regions that `write_some_` copies into. -/
theorem writeSome2_calls_eq (size n roff woff : Nat) :
    writeSome2_calls size n roff woff = (writeSome_ size n roff woff).copies.map Copy.region := by
  unfold writeSome2_calls writeSome_
  dsimp only
  split_ifs <;> rfl

theorem Moved.Around.tiles {m : Moved} {size off n : Nat} (h : m.Around size off n) :
    Tiles size off (m.copies.map Copy.region) n := by
  cases h with
  | none h => exact .nil
  | single h => exact .single h
  | wrapped h hk hn => exact .wrapped h hk hn

theorem writeSome2_calls_tiles {size n roff woff : Nat} (hw : woff < size) (hr : roff ≤ size) :
    Tiles size woff (writeSome2_calls size n roff woff)
      (min n (size - 1 - ByteRing.used size roff woff)) := by
  rw [writeSome2_calls_eq]
  exact (writeSome_around hw hr).tiles

/-- What a run of writer calls over tiled regions leaves: the bytes `d`
delivered by it, in the ring cells from `off`; the rest of the ring is
untouched outside the regions. -/
structure Fetch.Delivers (f f' : Fetch σ α) (size off n : Nat) (d : List α) : Prop where
  le : d.length ≤ n
  got : f'.got = f.got ++ d
  total : f'.total = f.total + d.length
  woff : f'.woff = (off + d.length) % size
  cells : ByteRing.window f'.data size off d.length = d
  frame : ∀ i, (∀ j < n, i ≠ (off + j) % size) → f'.data i = f.data i
  eof : f'.eof = if d.length < n then f.eof.map fun _ => true else f.eof

/-- Outside the cells of a region, the memory is as before. -/
theorem write_frame (m : ByteMem α) {size off k n : Nat} {l : List α} (hl : l.length = k)
    (hfit : off + k ≤ size) (hkn : k ≤ n) {i : Nat}
    (hi : ∀ j < n, i ≠ (off + j) % size) : m.write off l i = m i := by
  rcases Nat.lt_or_ge i off with hlt | hge
  · exact m.write_of_lt l hlt
  · refine m.write_of_ge l (Nat.le_of_not_lt fun hlt => ?_)
    refine hi (i - off) (by omega) ?_
    rw [Nat.add_sub_of_le hge, Nat.mod_eq_of_lt (by omega)]

/-- No call leaves everything as it is. -/
theorem Fetch.Delivers.nil {f : Fetch σ α} {size off : Nat} (hf : f.woff = off)
    (hoff : off < size) : f.Delivers f size off 0 [] where
  le := Nat.le_refl _
  got := (List.append_nil _).symm
  total := rfl
  woff := by rw [hf, List.length_nil, Nat.add_zero, Nat.mod_eq_of_lt hoff]
  cells := rfl
  frame := fun _ _ => rfl
  eof := rfl

/-- One call, on a region inside the ring. -/
theorem Fetch.ask_delivers (w : Writer σ α) {size : Nat} {r : Region} (f : Fetch σ α)
    (hf : f.woff = r.there) (hfit : r.there + r.length ≤ size) :
    ∃ d, f.Delivers (f.ask w size r).2 size r.there r.length d
      ∧ d.length = (f.ask w size r).1 := by
  set out := w.call f.ctx (f.data.read r.there r.length) with hout
  have hlen : out.1.length = r.length := by
    rw [hout, w.length_call, ByteMem.length_read]
  have hret : out.2.1 ≤ r.length := by
    have := w.ret_le f.ctx (f.data.read r.there r.length)
    rwa [ByteMem.length_read] at this
  have hread : (f.data.write r.there out.1).read r.there r.length = out.1 := by
    rw [← hlen, ByteMem.read_write_self]
  have htake : (out.1.take out.2.1).length = out.2.1 := by
    rw [List.length_take]; omega
  refine ⟨out.1.take out.2.1, ⟨?_, ?_, ?_, ?_, ?_, ?_, ?_⟩, htake⟩
  all_goals simp only [Fetch.ask, ← hout, htake]
  · exact hret
  · rw [hf]
  · rw [ByteRing.window_eq_read _ (by omega), ← ByteMem.take_read _ _ hret, hread]
  · exact fun i hi => write_frame _ hlen hfit (Nat.le_refl _) hi

/-- A full delivery, then one that starts where it ended. -/
theorem Fetch.Delivers.trans {f g h : Fetch σ α} {size off k n : Nat} {d e : List α}
    (hd : f.Delivers g size off k d) (hfull : d.length = k)
    (he : g.Delivers h size ((off + k) % size) n e) (hn : k + n ≤ size) :
    f.Delivers h size off (k + n) (d ++ e) where
  le := by have := he.le; rw [List.length_append]; omega
  got := by rw [he.got, hd.got, List.append_assoc]
  total := by rw [he.total, hd.total, List.length_append, Nat.add_assoc]
  woff := by rw [he.woff, List.length_append, hfull, Nat.mod_add_mod, Nat.add_assoc]
  cells := by
    have hcells := he.cells
    rw [ByteRing.window_start (off + k) _ (Nat.mod_mod _ _)] at hcells
    have hkeep : ByteRing.window h.data size off k = ByteRing.window g.data size off k := by
      refine ByteRing.window_congr fun j hj => he.frame _ fun j' hj' => ?_
      rw [Nat.mod_add_mod, Nat.add_assoc]
      exact ByteRing.cell_ne (by omega) (by omega)
    have hfirst := hd.cells
    rw [hfull] at hfirst
    rw [List.length_append, hfull, ByteRing.window_add, hkeep, hfirst, hcells]
  frame := by
    intro i hi
    rw [he.frame i fun j hj => ?_, hd.frame i fun j hj => hi j (by omega)]
    rw [Nat.mod_add_mod, Nat.add_assoc]
    exact hi _ (by omega)
  eof := by
    have hg : g.eof = f.eof := by rw [hd.eof, if_neg (by omega)]
    rw [he.eof, List.length_append, hfull, hg]
    simp only [Nat.add_lt_add_iff_left]

/-- A short delivery also counts against more regions. -/
theorem Fetch.Delivers.short {f g : Fetch σ α} {size off k n : Nat} {d : List α}
    (hd : f.Delivers g size off k d) (hshort : d.length < k) :
    f.Delivers g size off (k + n) d where
  le := by omega
  got := hd.got
  total := hd.total
  woff := hd.woff
  cells := hd.cells
  frame := fun i hi => hd.frame i fun j hj => hi j (by omega)
  eof := by rw [hd.eof, if_pos hshort, if_pos (by omega)]

theorem writeAndReturn_delivers (w : Writer σ α) {size off n : Nat} {regions : List Region}
    (ht : Tiles size off regions n) :
    ∀ f : Fetch σ α, f.woff = off → off < size → n ≤ size →
      ∃ d, f.Delivers (writeAndReturn_ w size regions f) size off n d := by
  induction ht with
  | nil => exact fun f hf hoff _ => ⟨[], .nil hf hoff⟩
  | @cons r rest n hfit _ ih =>
      intro f hf hoff hn
      obtain ⟨d, hd, hlen⟩ := f.ask_delivers w hf hfit
      simp only [writeAndReturn_]
      split
      · next hshort => exact ⟨d, hd.short (by omega)⟩
      · next hfull =>
        have hdlen : d.length = r.length := by have := hd.le; omega
        have hwoff : (f.ask w size r).2.woff = (r.there + r.length) % size := by
          rw [hd.woff, hdlen]
        obtain ⟨e, he⟩ := ih (f.ask w size r).2 hwoff (Nat.mod_lt _ (by omega)) (by omega)
        exact ⟨d ++ e, hd.trans hdlen he hn⟩

end Streamlike
