import Streamlike.Circbuf

/-!
# The circular buffer is a bounded queue of bytes

What the buffer is for: a queue of at most `c` bytes. `Fifo` is that
queue, with the bound as a field; `Op.Accepts` says, for each call, which
return values and which next queue it allows. Nothing of the ring shows.

`Represents` relates a buffer to the queue of its unread bytes. Every
call keeps it (`op_refines`), so every run of calls from `circbuf_init`
is a run of the queue (`circbuf_refines_fifo`).
-/

namespace Streamlike

variable {α σ : Type}

/-! ## The queue -/

/-- A queue of at most `c` bytes, oldest first. -/
structure Fifo (α : Type) (c : Nat) where
  q : List α
  length_le : q.length ≤ c

namespace Fifo

variable {c : Nat}

def empty (α : Type) (c : Nat) : Fifo α c := ⟨[], Nat.zero_le _⟩

/-- Bytes that still fit. -/
def free (f : Fifo α c) : Nat := c - f.q.length

/-- Append what fits. -/
def push (f : Fifo α c) (l : List α) (h : l.length ≤ f.free) : Fifo α c where
  q := f.q ++ l
  length_le := by
    have := f.length_le
    rw [List.length_append]
    unfold free at h
    omega

/-- Drop the `n` oldest bytes. -/
def pop (f : Fifo α c) (n : Nat) : Fifo α c where
  q := f.q.drop n
  length_le := by
    have := f.length_le
    rw [List.length_drop]
    omega

@[simp] theorem push_q (f : Fifo α c) (l : List α) (h : l.length ≤ f.free) :
    (f.push l h).q = f.q ++ l := rfl

@[simp] theorem pop_q (f : Fifo α c) (n : Nat) : (f.pop n).q = f.q.drop n := rfl

end Fifo

/-! ## Calls and runs -/

/-- A non-blocking call, with its arguments. -/
inductive Op (σ α : Type) where
  | writeSome (buf : ByteMem α) (n : Nat)
  | writeSome2 (w : Writer σ α) (ctx : σ) (n : Nat) (eof : Option Bool)
  | readSome (buf : ByteMem α) (n : Nat)
  | disposeSome (n : Nat)
  | reset

/-- What a call gives back: its return value, and the bytes that passed
through its pointers: read into the caller's memory, or delivered by the
writer. -/
structure Outcome (α : Type) where
  ret : Nat
  bytes : List α

/-- The call on the circular buffer. -/
def Op.run (cb : Circbuf α) : Op σ α → Circbuf α × Outcome α
  | .writeSome buf n =>
      let (cb', ret) := circbufWriteSome cb buf n
      (cb', ⟨ret, buf.read 0 ret⟩)
  | .writeSome2 w ctx n eof =>
      let (cb', f) := circbufWriteSome2 cb w ctx n eof
      (cb', ⟨f.total, f.got⟩)
  | .readSome buf n =>
      let (cb', buf', ret) := circbufReadSome cb buf n
      (cb', ⟨ret, buf'.read 0 ret⟩)
  | .disposeSome n =>
      let (cb', ret) := circbufDisposeSome cb n
      (cb', ⟨ret, []⟩)
  | .reset => (circbufReset cb, ⟨0, []⟩)

/-- The call on the queue: `writeSome` appends the first bytes of its
buffer that fit, `writeSome2` the bytes its writer delivered, `readSome`
and `disposeSome` remove the oldest bytes. -/
def Op.Accepts {c : Nat} (f : Fifo α c) : Op σ α → Outcome α → Fifo α c → Prop
  | .writeSome buf n, out, f' =>
      out.ret = min n f.free ∧ f'.q = f.q ++ buf.read 0 out.ret
  | .writeSome2 _ _ n _, out, f' =>
      out.ret = out.bytes.length ∧ out.ret ≤ min n f.free ∧ f'.q = f.q ++ out.bytes
  | .readSome _ n, out, f' =>
      out.ret = min n f.q.length ∧ out.bytes = f.q.take out.ret ∧ f'.q = f.q.drop out.ret
  | .disposeSome n, out, f' =>
      out.ret = min n f.q.length ∧ f'.q = f.q.drop out.ret
  | .reset, _, f' => f'.q = []

/-- A sequence of calls on the circular buffer. -/
def runOps (cb : Circbuf α) : List (Op σ α) → Circbuf α × List (Outcome α)
  | [] => (cb, [])
  | op :: ops =>
      let (cb', out) := op.run cb
      let (cb'', outs) := runOps cb' ops
      (cb'', out :: outs)

/-- A sequence of calls on the queue, with their outcomes. -/
inductive Fifo.Run {c : Nat} : Fifo α c → List (Op σ α) → List (Outcome α) → Fifo α c → Prop
  | nil (f : Fifo α c) : Fifo.Run f [] [] f
  | cons {f f' f'' : Fifo α c} {op : Op σ α} {ops : List (Op σ α)} {out : Outcome α}
      {outs : List (Outcome α)} (hop : op.Accepts f out f') (hops : Fifo.Run f' ops outs f'') :
      Fifo.Run f (op :: ops) (out :: outs) f''

/-! ## The abstraction relation -/

/-- `f` is the queue of the unread bytes of `cb`, a buffer of capacity
`c`. The offset `roff` may stand at the end of the array. -/
structure Represents {c : Nat} (cb : Circbuf α) (f : Fifo α c) : Prop where
  wf : cb.Wf
  size : cb.size = c + 1
  q : f.q = cb.unread

theorem Represents.length {c : Nat} {cb : Circbuf α} {f : Fifo α c} (h : Represents cb f) :
    f.q.length = circbufGetLength cb := by
  rw [h.q, length_unread]

/-- The free part of the ring is what still fits. -/
theorem Represents.free {c : Nat} {cb : Circbuf α} {f : Fifo α c} (h : Represents cb f) :
    f.free = cb.size - 1 - ByteRing.used cb.size cb.roff cb.woff := by
  rw [Fifo.free, h.length, circbufGetLength_eq, h.size, Nat.add_sub_cancel]

/-! ## What each call does to the unread bytes -/

/-- New bytes `d` in the ring cells from `woff`, nothing else of the ring
changed, and `woff` moved past them. -/
theorem unread_append {cb cb' : Circbuf α} {d : List α} (hwf : cb.Wf)
    (hsize : cb'.size = cb.size) (hroff : cb'.roff = cb.roff)
    (hwoff : cb'.woff = (cb.woff + d.length) % cb.size)
    (hfit : d.length ≤ cb.size - 1 - ByteRing.used cb.size cb.roff cb.woff)
    (hcells : ByteRing.window cb'.data cb.size cb.woff d.length = d)
    (hframe : ∀ i, (∀ j < cb.size - 1 - ByteRing.used cb.size cb.roff cb.woff,
      i ≠ (cb.woff + j) % cb.size) → cb'.data i = cb.data i) :
    cb'.unread = cb.unread ++ d := by
  have hw := hwf.woff_lt
  have hr := hwf.roff_le
  have hlt := ByteRing.used_lt hw hr
  have hused : circbufGetLength cb' = ByteRing.used cb.size cb.roff cb.woff + d.length := by
    rw [circbufGetLength_eq, hsize, hroff, hwoff, ByteRing.used_advance_woff hw hr hfit]
  rw [Circbuf.unread, hused, hsize, hroff, ByteRing.window_add,
    ← ByteRing.window_woff hw hr, hcells]
  congr 1
  refine ByteRing.window_congr fun i hi => hframe _ fun j hj => ?_
  -- the cell of an old byte is less than one turn before a free cell
  rw [← ByteRing.cell_used hw hr, Nat.mod_add_mod, Nat.add_assoc]
  exact ByteRing.cell_ne (by omega) (by omega)

/-- The `k` oldest bytes released. -/
theorem unread_drop {cb cb' : Circbuf α} {k : Nat} (hwf : cb.Wf)
    (hdata : cb'.data = cb.data) (hsize : cb'.size = cb.size) (hwoff : cb'.woff = cb.woff)
    (hk : k ≤ circbufGetLength cb) (hle : cb'.roff ≤ cb.size)
    (hmod : cb'.roff % cb.size = (cb.roff + k) % cb.size) :
    cb'.unread = cb.unread.drop k := by
  rw [Circbuf.unread, Circbuf.unread, ByteRing.drop_window _ _ _ hk, hdata, hsize,
    ByteRing.window_start _ _ hmod, circbufGetLength_eq, hsize, hwoff,
    ByteRing.used_advance_roff hwf.woff_lt hwf.roff_le hk hle hmod, circbufGetLength_eq]

/-- The copies of a read fill the caller's memory with the oldest bytes. -/
theorem read_copies {m : Moved} {size off n : Nat} (hm : m.Moves size off n)
    (data buf : ByteMem α) :
    (m.copies.foldl (fun b c => b.memcpy c.buf data c.cell c.len) buf).read 0 n
      = ByteRing.window data size off n := by
  have hcells : m.copies.foldl (fun b c => b.memcpy c.buf data c.cell c.len) buf
      = m.cells.foldl (fun b p => b.set p.2 (data p.1)) buf := by
    simp only [Moved.cells, List.foldl_flatMap, Copy.cells, List.foldl_map,
      ByteMem.memcpy_eq_foldl]
  rw [hcells, hm.cells, List.foldl_map]
  refine List.map_congr_left fun j hj => ?_
  rw [Nat.zero_add]
  exact ByteMem.foldl_set_of_mem (fun j => j) (fun j => data ((off + j) % size))
    (List.pairwise_lt_range.imp fun h => h.ne) hj

/-- The copies of a write, as bytes written one after the other. -/
theorem write_copies {m : Moved} {size off n : Nat} (hm : m.Moves size off n)
    (data buf : ByteMem α) :
    m.copies.foldl (fun d c => d.memcpy c.cell buf c.buf c.len) data
      = (List.range n).foldl (fun d j => d.set ((off + j) % size) (buf j)) data := by
  have hcells : m.copies.foldl (fun d c => d.memcpy c.cell buf c.buf c.len) data
      = m.cells.foldl (fun d p => d.set p.1 (buf p.2)) data := by
    simp only [Moved.cells, List.foldl_flatMap, Copy.cells, List.foldl_map,
      ByteMem.memcpy_eq_foldl]
  rw [hcells, hm.cells, List.foldl_map]

section Calls

variable {c : Nat} {cb : Circbuf α} {f : Fifo α c}

theorem writeSome_refines (h : Represents cb f) (buf : ByteMem α) (n : Nat) :
    ∃ f' : Fifo α c, Represents (circbufWriteSome cb buf n).1 f'
      ∧ (circbufWriteSome cb buf n).2 = min n f.free
      ∧ f'.q = f.q ++ buf.read 0 (min n f.free) := by
  have hw := h.wf.woff_lt
  have hr := h.wf.roff_le
  have hlt := ByteRing.used_lt hw hr
  have hm := writeSome_moves (n := n) hw hr
  have hfree := h.free
  rw [← hfree] at hm
  set k := min n f.free with hk
  have hkfree : k ≤ f.free := Nat.min_le_right _ _
  have hoff := writeSome_off_lt (n := n) hw hr
  refine ⟨f.push (buf.read 0 k) (by simpa using hkfree), ⟨⟨hoff, hr⟩, h.size, ?_⟩, hm.ret, rfl⟩
  have hpair : (List.range k).Pairwise
      fun x y => (cb.woff + x) % cb.size ≠ (cb.woff + y) % cb.size :=
    List.Pairwise.imp_of_mem (fun {x y} _ hy hxy =>
      ByteRing.cell_ne hxy (by have := List.mem_range.mp hy; omega)) List.pairwise_lt_range
  have hdata := write_copies hm cb.data buf
  symm
  rw [Fifo.push_q, h.q]
  refine unread_append h.wf rfl rfl ?_ ?_ ?_ ?_
  · rw [ByteMem.length_read, ← hm.off_mod]
    exact (Nat.mod_eq_of_lt hoff).symm
  · rw [ByteMem.length_read]; omega
  · rw [ByteMem.length_read]
    refine List.map_congr_left fun j hj => ?_
    rw [circbufWriteSome, Nat.zero_add]
    dsimp only
    rw [hdata]
    exact ByteMem.foldl_set_of_mem _ _ hpair hj
  · intro i hi
    rw [circbufWriteSome]
    dsimp only
    rw [hdata]
    exact ByteMem.foldl_set_of_ne _ _ fun j hj => hi j (by
      have := List.mem_range.mp hj; omega)

theorem writeSome2_refines (h : Represents cb f) (w : Writer σ α) (ctx : σ) (n : Nat)
    (eof : Option Bool) :
    ∃ f' : Fifo α c, Represents (circbufWriteSome2 cb w ctx n eof).1 f'
      ∧ (circbufWriteSome2 cb w ctx n eof).2.total
          = (circbufWriteSome2 cb w ctx n eof).2.got.length
      ∧ (circbufWriteSome2 cb w ctx n eof).2.total ≤ min n f.free
      ∧ f'.q = f.q ++ (circbufWriteSome2 cb w ctx n eof).2.got := by
  have hw := h.wf.woff_lt
  have hr := h.wf.roff_le
  have hlt := ByteRing.used_lt hw hr
  have hfree := h.free
  have ht := writeSome2_calls_tiles (n := n) hw hr
  rw [← hfree] at ht
  obtain ⟨d, hd⟩ := writeAndReturn_delivers w ht
    { data := cb.data, ctx, woff := cb.woff, total := 0, eof, got := [] } rfl hw (by omega)
  have hgot : (circbufWriteSome2 cb w ctx n eof).2.got = d := hd.got.trans (List.nil_append d)
  have htotal : (circbufWriteSome2 cb w ctx n eof).2.total = d.length :=
    hd.total.trans (Nat.zero_add _)
  have hle := hd.le
  refine ⟨f.push d (by omega), ⟨⟨?_, hr⟩, h.size, ?_⟩, by rw [htotal, hgot],
    by rw [htotal]; exact hle, by rw [hgot]; rfl⟩
  · exact lt_of_eq_of_lt hd.woff (Nat.mod_lt _ (by omega))
  · symm
    rw [Fifo.push_q, h.q]
    exact unread_append h.wf rfl rfl hd.woff (by omega) hd.cells
      fun i hi => hd.frame i fun j hj => hi j (by omega)

theorem readSome_refines (h : Represents cb f) (buf : ByteMem α) (n : Nat) :
    Represents (circbufReadSome cb buf n).1 (f.pop (min n f.q.length))
      ∧ (circbufReadSome cb buf n).2.2 = min n f.q.length
      ∧ (circbufReadSome cb buf n).2.1.read 0 (min n f.q.length)
          = f.q.take (min n f.q.length) := by
  have hm := readSome_moves (n := n) h.wf.woff_lt h.wf.roff_le
  rw [← circbufGetLength_eq, ← h.length] at hm
  have hk : min n f.q.length ≤ circbufGetLength cb := by rw [← h.length]; exact Nat.min_le_right _ _
  refine ⟨⟨⟨h.wf.woff_lt, hm.off_le⟩, h.size, ?_⟩, hm.ret, ?_⟩
  · have hdrop : (circbufReadSome cb buf n).1.unread = cb.unread.drop (min n f.q.length) :=
      unread_drop h.wf rfl rfl rfl hk hm.off_le hm.off_mod
    exact (congrArg _ h.q).trans hdrop.symm
  · rw [circbufReadSome]
    dsimp only
    rw [read_copies hm, h.q, Circbuf.unread, ByteRing.take_window _ _ _ (by rwa [h.q] at hk)]

theorem disposeSome_refines (h : Represents cb f) (n : Nat) :
    Represents (circbufDisposeSome cb n).1 (f.pop (min n f.q.length))
      ∧ (circbufDisposeSome cb n).2 = min n f.q.length := by
  have hw := h.wf.woff_lt
  have hr := h.wf.roff_le
  have hlt := ByteRing.used_lt hw hr
  have hlen := h.length
  have hmin : (circbufDisposeSome cb n).2 = min n f.q.length := by
    rw [circbufDisposeSome, hlen]
    dsimp only
    split <;> omega
  have hk : min n f.q.length ≤ circbufGetLength cb := by omega
  rw [circbufGetLength_eq] at hlen
  set k := min n f.q.length with hkdef
  have hle : (circbufDisposeSome cb n).1.roff < cb.size
      ∧ (circbufDisposeSome cb n).1.roff % cb.size = (cb.roff + k) % cb.size := by
    have hroff : (circbufDisposeSome cb n).1.roff
        = if cb.roff + k ≥ cb.size then cb.roff + k - cb.size else cb.roff + k := by
      rw [← hmin]; rfl
    rw [hroff, ByteRing.mod_eq_ite (a := cb.roff + k) (by omega)]
    split
    · next hge => rw [Nat.mod_eq_of_lt (by omega), if_neg (by omega)]; omega
    · next hlt => rw [Nat.mod_eq_of_lt (by omega), if_pos (by omega)]; omega
  refine ⟨⟨⟨hw, hle.1.le⟩, h.size, ?_⟩, hmin⟩
  have hdrop : (circbufDisposeSome cb n).1.unread = cb.unread.drop k :=
    unread_drop h.wf rfl rfl rfl hk hle.1.le hle.2
  exact (congrArg _ h.q).trans hdrop.symm

theorem reset_refines (h : Represents cb f) :
    Represents (circbufReset cb) (Fifo.empty α c) where
  wf := ⟨by rw [circbufReset, h.size]; exact Nat.succ_pos _, Nat.zero_le _⟩
  size := h.size
  q := rfl

/-- Every call on the buffer is the call on the queue. -/
theorem op_refines (h : Represents cb f) (op : Op σ α) :
    ∃ f' : Fifo α c, Represents (op.run cb).1 f' ∧ op.Accepts f (op.run cb).2 f' := by
  cases op with
  | writeSome buf n =>
      obtain ⟨f', hrep, hret, hq⟩ := writeSome_refines h buf n
      exact ⟨f', hrep, hret, by simpa only [Op.run, hret] using hq⟩
  | writeSome2 w ctx n eof =>
      obtain ⟨f', hrep, hlen, hle, hq⟩ := writeSome2_refines h w ctx n eof
      exact ⟨f', hrep, hlen, hle, hq⟩
  | readSome buf n =>
      obtain ⟨hrep, hret, hbytes⟩ := readSome_refines h buf n
      refine ⟨_, hrep, hret, ?_, ?_⟩
      · simpa only [Op.run, hret] using hbytes
      · simp only [Op.run, hret, Fifo.pop_q]
  | disposeSome n =>
      obtain ⟨hrep, hret⟩ := disposeSome_refines h n
      exact ⟨_, hrep, hret, by simp only [Op.run, hret, Fifo.pop_q]⟩
  | reset => exact ⟨_, reset_refines h, rfl⟩

end Calls

/-! ## Runs -/

/-- The buffer that `circbuf_init` returns is an empty queue. -/
theorem init_represents {env : InitEnv α} {c : Nat} {cb : Circbuf α}
    (hinit : circbufInit env c = some cb) (halloc : env.Allocatable (c + 1)) :
    Represents cb (Fifo.empty α c) := by
  have hmod : (c + 1) % 2 ^ env.width = c + 1 :=
    Nat.mod_eq_of_lt (Nat.lt_of_lt_of_le halloc (Nat.pow_le_pow_right (by omega) (by omega)))
  obtain ⟨-, data, -, rfl⟩ := circbufInit_eq hinit
  rw [hmod]
  exact ⟨⟨Nat.succ_pos _, Nat.zero_le _⟩, rfl, rfl⟩

theorem runOps_refines {c : Nat} (ops : List (Op σ α)) :
    ∀ {cb : Circbuf α} {f : Fifo α c}, Represents cb f →
      ∃ f' : Fifo α c, Represents (runOps cb ops).1 f' ∧ f.Run ops (runOps cb ops).2 f' := by
  induction ops with
  | nil => exact fun {cb f} h => ⟨f, h, .nil f⟩
  | cons op ops ih =>
      intro cb f h
      obtain ⟨f', hrep, hop⟩ := op_refines h op
      obtain ⟨f'', hrep', hops⟩ := ih hrep
      exact ⟨f'', hrep', .cons hop hops⟩

end Streamlike
