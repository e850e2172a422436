import Streamlike.CircbufOffset
import Streamlike.SizeT

/-!
# The circular buffer in `size_t` arithmetic

The calls of `Circbuf` once more, with every addition and subtraction on
a `size_t` of `width` bits and with a trace of the regions passed to
`memcpy` and to a writer. `Circbuf` computes with natural numbers;
`op_returns` says that this is exact: as long as the array has at most
`PTRDIFF_MAX` bytes, no operation wraps and every region is inside the
array.

`circbuf_init` increments the capacity before the allocation. For the
capacity `SIZE_MAX` the sum wraps to 0, and an allocation of no bytes may
succeed: then every write goes outside (`size_arithmetic_iff`).
-/

namespace Streamlike

open SizeT

/-- A region passed to `memcpy`, with the length of the caller's memory
that it also touches, or one passed to a writer. -/
inductive Access where
  | copy (c : Copy) (buf_len : Nat)
  | writer (r : Region)
deriving DecidableEq

/-- Inside the array of `allocated` bytes, and inside the caller's memory. -/
def Access.Within (allocated : Nat) : Access → Prop
  | .copy c buf_len => c.cell + c.len ≤ allocated ∧ c.buf + c.len ≤ buf_len
  | .writer r => r.there + r.length ≤ allocated

variable {α σ : Type}

/-- The length that the caller gives. -/
def Op.length : Op σ α → Nat
  | .writeSome _ n | .writeSome2 _ _ n _ | .readSome _ n | .disposeSome n => n
  | .reset => 0

namespace Machine

/-! ## The functions -/

/-- `circbuf_init`: one addition, and then no arithmetic. -/
def circbufInit (env : InitEnv α) (cbuf_size : Nat) : Traced Access (Option (Circbuf α)) :=
  if cbuf_size = 0 then pure none
  else do
    let cbuf_size ← add env.width cbuf_size 1
    pure <|
      if !env.mallocCbuf then none
      else
        match env.mallocData cbuf_size with
        | none => none
        | some data =>
            if env.rcondInit && env.wcondInit && env.rlockInit && env.wlockInit then
              some { data, size := cbuf_size, woff := 0, roff := 0,
                     wdone := false, rdone := false }
            else none

/-- `circbuf_get_length`. -/
def circbufGetLength (width : Nat) (cb : Circbuf α) : Traced Access Nat :=
  let roff := cb.roff
  let woff := cb.woff
  if woff ≥ roff then sub width woff roff
  else do
    let len ← sub width cb.size roff
    add width len woff

/-- A `memcpy` between the array and the caller's memory. -/
def memcpy (c : Copy) (buf_len : Nat) : Traced Access Unit := access (.copy c buf_len)

/-- `read_some_`. -/
def readSome_ (width cbuf_size buf_len roff woff : Nat) : Traced Access Moved :=
  if roff = woff then pure ⟨[], roff, 0⟩
  else if roff < woff then do
    let avail ← sub width woff roff
    if avail ≥ buf_len then do
      memcpy ⟨roff, 0, buf_len⟩ buf_len
      let off ← add width roff buf_len
      pure ⟨[⟨roff, 0, buf_len⟩], off, buf_len⟩
    else do
      memcpy ⟨roff, 0, avail⟩ buf_len
      let off ← add width roff avail
      pure ⟨[⟨roff, 0, avail⟩], off, avail⟩
  else do
    let avail ← sub width cbuf_size roff
    if avail ≥ buf_len then do
      memcpy ⟨roff, 0, buf_len⟩ buf_len
      let off ← add width roff buf_len
      pure ⟨[⟨roff, 0, buf_len⟩], off, buf_len⟩
    else do
      memcpy ⟨roff, 0, avail⟩ buf_len
      let rest ← sub width buf_len avail
      if woff > rest then do
        memcpy ⟨0, avail, rest⟩ buf_len
        pure ⟨[⟨roff, 0, avail⟩, ⟨0, avail, rest⟩], rest, buf_len⟩
      else do
        memcpy ⟨0, avail, woff⟩ buf_len
        let ret ← add width avail woff
        pure ⟨[⟨roff, 0, avail⟩, ⟨0, avail, woff⟩], woff, ret⟩

/-- The full test of `write_some_` and `write_some2_`. -/
def isFull (width cbuf_size roff woff : Nat) : Traced Access Bool := do
  let next ← add width woff 1
  if next = roff then pure true
  else do
    let last ← sub width cbuf_size 1
    pure (decide (woff = last ∧ roff = 0))

/-- `write_some_`. -/
def writeSome_ (width cbuf_size buf_len roff woff : Nat) : Traced Access Moved := do
  let full ← isFull width cbuf_size roff woff
  if full then pure ⟨[], woff, 0⟩
  else if woff < roff then do
    let gap ← sub width roff woff
    let avail ← sub width gap 1
    if avail ≥ buf_len then do
      memcpy ⟨woff, 0, buf_len⟩ buf_len
      let off ← add width woff buf_len
      pure ⟨[⟨woff, 0, buf_len⟩], off, buf_len⟩
    else do
      memcpy ⟨woff, 0, avail⟩ buf_len
      let off ← add width woff avail
      pure ⟨[⟨woff, 0, avail⟩], off, avail⟩
  else do
    let avail ← sub width cbuf_size woff
    if avail > buf_len then do
      memcpy ⟨woff, 0, buf_len⟩ buf_len
      let off ← add width woff buf_len
      pure ⟨[⟨woff, 0, buf_len⟩], off, buf_len⟩
    else if roff = 0 then do
      let k ← sub width avail 1
      memcpy ⟨woff, 0, k⟩ buf_len
      let off ← add width woff k
      pure ⟨[⟨woff, 0, k⟩], off, k⟩
    else do
      memcpy ⟨woff, 0, avail⟩ buf_len
      let rest ← sub width buf_len avail
      if roff > rest then do
        memcpy ⟨0, avail, rest⟩ buf_len
        pure ⟨[⟨woff, 0, avail⟩, ⟨0, avail, rest⟩], rest, buf_len⟩
      else do
        let k ← sub width roff 1
        memcpy ⟨0, avail, k⟩ buf_len
        let sum ← add width avail roff
        let ret ← sub width sum 1
        pure ⟨[⟨woff, 0, avail⟩, ⟨0, avail, k⟩], k, ret⟩

/-- `WRITE_AND_RETURN_IF_EOF_`: one writer call, and `rest` after a full
one. -/
def writeAndReturnIfEof_ (width : Nat) (w : Writer σ α) (cbuf_size : Nat) (r : Region)
    (f : Fetch σ α) (rest : Fetch σ α → Traced Access (Fetch σ α)) :
    Traced Access (Fetch σ α) := do
  access (.writer r)
  let out := w.call f.ctx (f.data.read r.there r.length)
  let written := out.2.1
  let woff ← add width f.woff written
  let total ← add width f.total written
  let f' : Fetch σ α :=
    { data := f.data.write r.there out.1
      ctx := out.2.2
      woff := woff % cbuf_size
      total
      eof := if written < r.length then f.eof.map fun _ => true else f.eof
      got := f.got ++ out.1.take written }
  if written < r.length then pure f' else rest f'

/-- `write_some2_`. -/
def writeSome2_ (width : Nat) (w : Writer σ α) (data : ByteMem α) (cbuf_size : Nat) (ctx : σ)
    (write_len roff woff : Nat) (eof : Option Bool) : Traced Access (Fetch σ α) := do
  let f : Fetch σ α := { data, ctx, woff, total := 0, eof, got := [] }
  let full ← isFull width cbuf_size roff woff
  if full then pure f
  else if woff < roff then do
    let gap ← sub width roff woff
    let avail ← sub width gap 1
    if avail ≥ write_len then
      writeAndReturnIfEof_ width w cbuf_size ⟨woff, write_len⟩ f pure
    else writeAndReturnIfEof_ width w cbuf_size ⟨woff, avail⟩ f pure
  else do
    let avail ← sub width cbuf_size woff
    if avail > write_len then
      writeAndReturnIfEof_ width w cbuf_size ⟨woff, write_len⟩ f pure
    else if roff = 0 then do
      let k ← sub width avail 1
      writeAndReturnIfEof_ width w cbuf_size ⟨woff, k⟩ f pure
    else
      writeAndReturnIfEof_ width w cbuf_size ⟨woff, avail⟩ f fun f => do
        let rest ← sub width write_len avail
        if roff > rest then writeAndReturnIfEof_ width w cbuf_size ⟨0, rest⟩ f pure
        else do
          let k ← sub width roff 1
          writeAndReturnIfEof_ width w cbuf_size ⟨0, k⟩ f pure

/-- `circbuf_read_some`. -/
def circbufReadSome (width : Nat) (cb : Circbuf α) (buf : ByteMem α) (buf_len : Nat) :
    Traced Access (Circbuf α × ByteMem α × Nat) := do
  let m ← readSome_ width cb.size buf_len cb.roff cb.woff
  pure ({ cb with roff := m.off },
    m.copies.foldl (fun b c => b.memcpy c.buf cb.data c.cell c.len) buf, m.ret)

/-- `circbuf_dispose_some`. -/
def circbufDisposeSome (width : Nat) (cb : Circbuf α) (len : Nat) :
    Traced Access (Circbuf α × Nat) := do
  let cbuf_len ← circbufGetLength width cb
  let len := if cbuf_len < len then cbuf_len else len
  let roff ← add width cb.roff len
  if roff ≥ cb.size then do
    let roff ← sub width roff cb.size
    pure ({ cb with roff }, len)
  else pure ({ cb with roff }, len)

/-- `circbuf_write_some`. -/
def circbufWriteSome (width : Nat) (cb : Circbuf α) (buf : ByteMem α) (buf_len : Nat) :
    Traced Access (Circbuf α × Nat) := do
  let m ← writeSome_ width cb.size buf_len cb.roff cb.woff
  pure ({ cb with
     data := m.copies.foldl (fun d c => d.memcpy c.cell buf c.buf c.len) cb.data
     woff := m.off }, m.ret)

/-- `circbuf_write_some2`. -/
def circbufWriteSome2 (width : Nat) (cb : Circbuf α) (w : Writer σ α) (ctx : σ) (len : Nat)
    (eof : Option Bool) : Traced Access (Circbuf α × Fetch σ α) := do
  let f ← writeSome2_ width w cb.data cb.size ctx len cb.roff cb.woff eof
  pure ({ cb with data := f.data, woff := f.woff }, f)

/-- A call. -/
def opRun (width : Nat) (cb : Circbuf α) : Op σ α → Traced Access (Circbuf α × Outcome α)
  | .writeSome buf n => do
      let (cb', ret) ← circbufWriteSome width cb buf n
      pure (cb', ⟨ret, buf.read 0 ret⟩)
  | .writeSome2 w ctx n eof => do
      let (cb', f) ← circbufWriteSome2 width cb w ctx n eof
      pure (cb', ⟨f.total, f.got⟩)
  | .readSome buf n => do
      let (cb', buf', ret) ← circbufReadSome width cb buf n
      pure (cb', ⟨ret, buf'.read 0 ret⟩)
  | .disposeSome n => do
      let (cb', ret) ← circbufDisposeSome width cb n
      pure (cb', ⟨ret, []⟩)
  | .reset => pure (circbufReset cb, ⟨0, []⟩)

/-- A sequence of calls. -/
def runOps (width : Nat) (cb : Circbuf α) :
    List (Op σ α) → Traced Access (Circbuf α × List (Outcome α))
  | [] => pure (cb, [])
  | op :: ops => do
      let (cb', out) ← opRun width cb op
      let (cb'', outs) ← runOps width cb' ops
      pure (cb'', out :: outs)

/-! ## Each function is exact -/

section Exact

variable {width size n roff woff : Nat}

theorem memcpy_returns {cell buf len : Nat} (hcell : cell + len ≤ size) (hbuf : buf + len ≤ n) :
    Returns (Access.Within size) (memcpy ⟨cell, buf, len⟩ n) () :=
  .access ⟨hcell, hbuf⟩

/-- One copy and the offset after it. -/
theorem copy_returns {off k : Nat} (hpow : size < 2 ^ width) (hcell : off + k ≤ size)
    (hbuf : k ≤ n) :
    Returns (Access.Within size)
      (do
        memcpy ⟨off, 0, k⟩ n
        let off' ← add width off k
        pure (⟨[⟨off, 0, k⟩], off', k⟩ : Moved)) ⟨[⟨off, 0, k⟩], off + k, k⟩ :=
  .bind (memcpy_returns hcell (by omega)) (.bind (.add (by omega)) (.pure _))

theorem readSome_returns (hpow : size < 2 ^ width) (hn : n < 2 ^ width) (hw : woff < size)
    (hr : roff ≤ size) :
    Returns (Access.Within size) (readSome_ width size n roff woff)
      (Streamlike.readSome_ size n roff woff) := by
  unfold readSome_ Streamlike.readSome_
  dsimp only
  split
  · exact .pure _
  · split
    · refine .bind (.sub (by omega) (by omega)) ?_
      split
      · exact copy_returns hpow (by omega) (by omega)
      · exact copy_returns hpow (by omega) (by omega)
    · refine .bind (.sub (by omega) (by omega)) ?_
      split
      · exact copy_returns hpow (by omega) (by omega)
      · refine .bind (memcpy_returns (by omega) (by omega))
          (.bind (.sub (by omega) (by omega)) ?_)
        split
        · exact .bind (memcpy_returns (by omega) (by omega)) (.pure _)
        · exact .bind (memcpy_returns (by omega) (by omega)) (.bind (.add (by omega)) (.pure _))

theorem isFull_returns (hpow : size < 2 ^ width) (hw : woff < size) :
    Returns (Access.Within size) (isFull width size roff woff)
      (decide (woff + 1 = roff ∨ (woff = size - 1 ∧ roff = 0))) := by
  unfold isFull
  refine .bind (.add (by omega)) ?_
  split
  · next h => simpa [h] using Returns.pure true
  · next h =>
    refine .bind (.sub (by omega) (by omega)) ?_
    simpa [h] using Returns.pure _

theorem writeSome_returns (hpow : size < 2 ^ width) (hn : n < 2 ^ width) (hw : woff < size)
    (hr : roff ≤ size) :
    Returns (Access.Within size) (writeSome_ width size n roff woff)
      (Streamlike.writeSome_ size n roff woff) := by
  unfold writeSome_ Streamlike.writeSome_
  refine .bind (isFull_returns hpow hw) ?_
  simp only [decide_eq_true_eq]
  split
  · exact .pure _
  · split
    · refine .bind (.sub (by omega) (by omega)) (.bind (.sub (by omega) (by omega)) ?_)
      split
      · exact copy_returns hpow (by omega) (by omega)
      · exact copy_returns hpow (by omega) (by omega)
    · refine .bind (.sub (by omega) (by omega)) ?_
      split
      · exact copy_returns hpow (by omega) (by omega)
      · split
        · refine .bind (.sub (by omega) (by omega)) ?_
          exact copy_returns hpow (by omega) (by omega)
        · refine .bind (memcpy_returns (by omega) (by omega))
            (.bind (.sub (by omega) (by omega)) ?_)
          split
          · exact .bind (memcpy_returns (by omega) (by omega)) (.pure _)
          · exact .bind (.sub (by omega) (by omega))
              (.bind (memcpy_returns (by omega) (by omega))
                (.bind (.add (by omega)) (.bind (.sub (by omega) (by omega)) (.pure _))))

/-- The offset and the count after a writer call. -/
theorem ask_bounds (w : Writer σ α) {r : Region} (f : Fetch σ α) (hpos : 0 < size) :
    (f.ask w size r).2.woff < size ∧ (f.ask w size r).1 ≤ r.length
      ∧ (f.ask w size r).2.total ≤ f.total + r.length := by
  have hret : (f.ask w size r).1 ≤ r.length := by
    have := w.ret_le f.ctx (f.data.read r.there r.length)
    rwa [ByteMem.length_read] at this
  exact ⟨Nat.mod_lt _ hpos, hret, Nat.add_le_add_left hret _⟩

/-- One writer call inside the array, before calls that are exact. -/
theorem writeAndReturnIfEof_returns (w : Writer σ α) {r : Region} {f : Fetch σ α}
    {rest : Fetch σ α → Traced Access (Fetch σ α)} {regions : List Region}
    (hpow : 2 * size ≤ 2 ^ width) (hfit : r.there + r.length ≤ size) (hwoff : f.woff < size)
    (htotal : f.total + r.length < 2 * size)
    (hrest : Returns (Access.Within size) (rest (f.ask w size r).2)
      (writeAndReturn_ w size regions (f.ask w size r).2)) :
    Returns (Access.Within size) (writeAndReturnIfEof_ width w size r f rest)
      (writeAndReturn_ w size (r :: regions) f) := by
  have hret := (ask_bounds w (r := r) f (by omega : 0 < size)).2.1
  unfold writeAndReturnIfEof_
  refine .bind (.access hfit) ?_
  dsimp only
  refine .bind (.add (show f.woff + (f.ask w size r).1 < _ by omega)) ?_
  refine .bind (.add (show f.total + (f.ask w size r).1 < _ by omega)) ?_
  change Returns _
    (if (f.ask w size r).1 < r.length then pure (f.ask w size r).2 else rest (f.ask w size r).2)
    (if (f.ask w size r).1 < r.length then (f.ask w size r).2
      else writeAndReturn_ w size regions (f.ask w size r).2)
  split
  · exact .pure _
  · exact hrest

/-- The last writer call. -/
theorem lastCall_returns (w : Writer σ α) {there k : Nat} {f : Fetch σ α}
    (hpow : 2 * size ≤ 2 ^ width) (hfit : there + k ≤ size) (hwoff : f.woff < size)
    (htotal : f.total + k < 2 * size) :
    Returns (Access.Within size) (writeAndReturnIfEof_ width w size ⟨there, k⟩ f pure)
      (writeAndReturn_ w size [⟨there, k⟩] f) :=
  writeAndReturnIfEof_returns w hpow hfit hwoff htotal (.pure _)

theorem writeSome2_returns (w : Writer σ α) (data : ByteMem α) (ctx : σ) (eof : Option Bool)
    (hpow : 2 * size ≤ 2 ^ width) (hn : n < 2 ^ width) (hw : woff < size) (hr : roff ≤ size) :
    Returns (Access.Within size) (writeSome2_ width w data size ctx n roff woff eof)
      (Streamlike.writeSome2_ w data size ctx n roff woff eof) := by
  unfold writeSome2_ Streamlike.writeSome2_ writeSome2_calls
  refine .bind (isFull_returns (by omega) hw) ?_
  simp only [decide_eq_true_eq]
  split
  · exact .pure _
  · split
    · refine .bind (.sub (by omega) (by omega)) (.bind (.sub (by omega) (by omega)) ?_)
      split
      · exact lastCall_returns w hpow (by omega) hw (by dsimp only; omega)
      · exact lastCall_returns w hpow (by omega) hw (by dsimp only; omega)
    · refine .bind (.sub (by omega) (by omega)) ?_
      split
      · exact lastCall_returns w hpow (by omega) hw (by dsimp only; omega)
      · split
        · refine .bind (.sub (by omega) (by omega)) ?_
          exact lastCall_returns w hpow (by omega) hw (by dsimp only; omega)
        · have hfirst := ask_bounds w (r := ⟨woff, size - woff⟩)
            (⟨data, ctx, woff, 0, eof, []⟩ : Fetch σ α) (by omega : 0 < size)
          dsimp only at hfirst
          split
          all_goals
            refine writeAndReturnIfEof_returns w hpow (by dsimp only; omega) hw
              (by dsimp only; omega) ?_
            refine .bind (.sub (by omega) (by omega)) ?_
          · next hfits =>
            rw [if_pos hfits]
            exact lastCall_returns w hpow (by omega) hfirst.1 (by omega)
          · next hshort =>
            rw [if_neg hshort]
            refine .bind (.sub (by omega) (by omega)) ?_
            exact lastCall_returns w hpow (by omega) hfirst.1 (by omega)

end Exact

/-! ## The calls -/

section Calls

variable {width n : Nat} {cb : Circbuf α}

theorem getLength_returns (hpow : cb.size < 2 ^ width) (hwf : cb.Wf) :
    Returns (Access.Within cb.size) (circbufGetLength width cb)
      (Streamlike.circbufGetLength cb) := by
  have hw := hwf.woff_lt
  have hr := hwf.roff_le
  unfold circbufGetLength Streamlike.circbufGetLength
  dsimp only
  split
  · exact .sub (by omega) (by omega)
  · exact .bind (.sub (by omega) (by omega)) (.add (by omega))

theorem disposeSome_returns (hpow : 2 * cb.size ≤ 2 ^ width) (hwf : cb.Wf) :
    Returns (Access.Within cb.size) (circbufDisposeSome width cb n)
      (Streamlike.circbufDisposeSome cb n) := by
  have hw := hwf.woff_lt
  have hr := hwf.roff_le
  have hlen : Streamlike.circbufGetLength cb < cb.size := ByteRing.used_lt hw hr
  unfold circbufDisposeSome Streamlike.circbufDisposeSome
  refine .bind (getLength_returns (by omega) hwf) ?_
  dsimp only
  set len := if Streamlike.circbufGetLength cb < n then Streamlike.circbufGetLength cb else n
    with hdef
  have hle : len ≤ Streamlike.circbufGetLength cb := by rw [hdef]; split <;> omega
  refine .bind (.add (by omega)) ?_
  split
  · exact .bind (.sub (by omega) (by omega)) (.pure _)
  · exact .pure _

/-- A call in `size_t` arithmetic is the call of `Circbuf`. -/
theorem op_returns (hpow : 2 * cb.size ≤ 2 ^ width) (hwf : cb.Wf) (op : Op σ α)
    (hlen : op.length < 2 ^ width) :
    Returns (Access.Within cb.size) (opRun width cb op) (op.run cb) := by
  have hw := hwf.woff_lt
  have hr := hwf.roff_le
  cases op with
  | writeSome buf n =>
      exact .bind (.bind (writeSome_returns (by omega) hlen hw hr) (.pure _)) (.pure _)
  | writeSome2 w ctx n eof =>
      exact .bind (.bind (writeSome2_returns w _ _ _ hpow hlen hw hr) (.pure _)) (.pure _)
  | readSome buf n =>
      exact .bind (.bind (readSome_returns (by omega) hlen hw hr) (.pure _)) (.pure _)
  | disposeSome n => exact .bind (disposeSome_returns hpow hwf) (.pure _)
  | reset => exact .pure _

/-- A run, by induction on its calls. -/
theorem runOps_returns {c : Nat} (ops : List (Op σ α)) :
    ∀ {cb : Circbuf α} {f : Fifo α c}, Represents cb f → 2 * cb.size ≤ 2 ^ width →
      (∀ op ∈ ops, op.length < 2 ^ width) →
      Returns (Access.Within cb.size) (runOps width cb ops) (Streamlike.runOps cb ops) := by
  induction ops with
  | nil => exact fun _ _ _ => .pure _
  | cons op ops ih =>
      intro cb f h hpow hlen
      obtain ⟨f', hrep, -⟩ := op_refines h op
      have hsize : (op.run cb).1.size = cb.size := hrep.size.trans h.size.symm
      refine .bind (op_returns hpow h.wf op (hlen op List.mem_cons_self)) ?_
      refine .bind ?_ (.pure _)
      exact hsize ▸ ih hrep (hsize.symm ▸ hpow) fun op hop => hlen op (List.mem_cons_of_mem _ hop)

end Calls

end Machine

/-! ## From `circbuf_init` -/

section Init

variable {env : InitEnv α} {c : Nat} {cb : Circbuf α}

/-- The capacities that a request of at most `PTRDIFF_MAX` bytes and an
increment without a wrap leave. -/
theorem allocated_le (hmalloc : ∀ n, ¬ env.Allocatable n → env.mallocData n = none)
    (hinit : circbufInit env c = some cb) (hc : c + 1 < 2 ^ env.width) :
    env.Allocatable (c + 1) := by
  by_contra hbig
  obtain ⟨-, data, hdata, -⟩ := circbufInit_eq hinit
  rw [Nat.mod_eq_of_lt hc, hmalloc _ hbig] at hdata
  cases hdata

theorem machineInit_val (env : InitEnv α) (c : Nat) :
    (Machine.circbufInit env c).val = circbufInit env c := by
  unfold Machine.circbufInit circbufInit
  split <;> rfl

/-- The increment is the only operation of `circbuf_init`. -/
theorem machineInit_safe (hpos : c ≠ 0) (size : Nat) :
    (Machine.circbufInit env c).Safe (Access.Within size) ↔ c + 1 < 2 ^ env.width := by
  unfold Machine.circbufInit
  rw [if_neg hpos, Traced.Safe]
  simp only [mem_bind, SizeT.add]
  split
  · next h => simp [h, pure]
  · next h => simp [h]

/-- Without the `SIZE_MAX` capacity, every run is exact. -/
theorem machineRun_safe (hmalloc : ∀ n, ¬ env.Allocatable n → env.mallocData n = none)
    (hinit : circbufInit env c = some cb) (hc : c + 1 < 2 ^ env.width) (ops : List (Op σ α))
    (hlen : ∀ op ∈ ops, op.length < 2 ^ env.width) :
    Returns (Access.Within cb.size) (Machine.runOps env.width cb ops) (runOps cb ops) := by
  have halloc := allocated_le hmalloc hinit hc
  have hrep := init_represents hinit halloc
  have hdouble : 2 ^ (env.width - 1) * 2 ≤ 2 ^ env.width := by
    have hpos : 0 < env.width := by
      by_contra hzero
      rw [show env.width = 0 by omega] at hc
      omega
    rw [← pow_succ, Nat.sub_add_cancel hpos]
  refine Machine.runOps_returns ops hrep ?_ hlen
  rw [hrep.size]
  unfold InitEnv.Allocatable at halloc
  omega

/-- With it the array has no bytes, and the full test of the first write
wraps. -/
theorem machineRun_wraps (hinit : circbufInit env c = some cb) (hc : c + 1 = 2 ^ env.width) :
    .wrap ∈ (Machine.runOps env.width cb [.writeSome (σ := σ) cb.data 0]).trace := by
  obtain ⟨hpos, data, -, rfl⟩ := circbufInit_eq hinit
  rw [hc, Nat.mod_self]
  refine mem_bind.mpr (.inl (mem_bind.mpr (.inl (mem_bind.mpr (.inl (mem_bind.mpr (.inl ?_)))))))
  refine mem_bind.mpr (.inr ?_)
  have hone : (0 + 1) % 2 ^ env.width = 1 := Nat.mod_eq_of_lt (by omega)
  rw [SizeT.add, hone]
  simp [mem_bind, SizeT.sub]

/-- **No size wraps and no copy leaves the array** for exactly the
capacities below `SIZE_MAX`: in every run, and in `circbuf_init` itself. -/
theorem size_arithmetic_iff (env : InitEnv α) (c : Nat) (cb : Circbuf α)
    (hmalloc : ∀ n, ¬ env.Allocatable n → env.mallocData n = none) (hc : c < 2 ^ env.width)
    (hinit : (Machine.circbufInit env c).val = some cb) :
    ((∀ ops : List (Op σ α), (∀ op ∈ ops, op.length < 2 ^ env.width) →
          (Machine.runOps env.width cb ops).Safe (Access.Within cb.size))
        ↔ c + 1 < 2 ^ env.width)
      ∧ ((Machine.circbufInit env c).Safe (Access.Within cb.size) ↔ c + 1 < 2 ^ env.width) := by
  rw [machineInit_val] at hinit
  have hpos := (circbufInit_open hinit).1
  refine ⟨⟨fun hruns => ?_, fun hlt ops hlen => ?_⟩, machineInit_safe (by omega) _⟩
  · by_contra hge
    have hmax : c + 1 = 2 ^ env.width := by omega
    refine (hruns [.writeSome cb.data 0] ?_).1 (machineRun_wraps hinit hmax)
    rintro op hop
    rw [List.mem_singleton.mp hop]
    exact Nat.two_pow_pos _
  · exact (machineRun_safe hmalloc hinit hlt ops hlen).safe

/-- 64 bits, and a `malloc` that refuses requests above `PTRDIFF_MAX` and
returns a pointer for a request of no bytes. -/
def InitEnv.ptrdiff : InitEnv Nat :=
  { InitEnv.ample 0 with
    mallocData := fun n => if (InitEnv.ample 0).Allocatable n then some fun _ => 0 else none }

theorem ptrdiff_malloc (n : Nat) (h : ¬ InitEnv.ptrdiff.Allocatable n) :
    InitEnv.ptrdiff.mallocData n = none :=
  if_neg h

/-- A buffer of two bytes. -/
theorem size_arithmetic_iff_run :
    ∃ cb : Circbuf Nat, (Machine.circbufInit .ptrdiff 2).val = some cb
      ∧ (Machine.runOps (σ := Unit) 64 cb [.writeSome (fun _ => 7) 2, .readSome (fun _ => 0) 1,
          .writeSome (fun _ => 8) (2 ^ 64 - 1)]).Safe (Access.Within cb.size) := by
  refine ⟨_, rfl, (size_arithmetic_iff (σ := Unit) .ptrdiff 2 _ ptrdiff_malloc (by decide)
    rfl).1.mpr (by decide) _ ?_⟩
  simp [Op.length, InitEnv.ptrdiff, InitEnv.ample]

/-- The capacity `SIZE_MAX` gives an array of no bytes, and the first write
passes the region of `SIZE_MAX` bytes from its beginning to `memcpy`. -/
theorem size_arithmetic_wraps :
    ∃ cb : Circbuf Nat, (Machine.circbufInit .ptrdiff (2 ^ 64 - 1)).val = some cb
      ∧ cb.size = 0
      ∧ .access (.copy ⟨0, 0, 2 ^ 64 - 1⟩ 1)
          ∈ (Machine.runOps (σ := Unit) 64 cb [.writeSome (fun _ => 7) 1]).trace
      ∧ ¬ (Machine.runOps (σ := Unit) 64 cb [.writeSome (fun _ => 7) 1]).Safe
          (Access.Within cb.size) := by
  have hinit : (Machine.circbufInit .ptrdiff (2 ^ 64 - 1)).val
      = some ⟨fun _ => 0, 0, 0, 0, false, false⟩ := by
    rw [machineInit_val]
    rfl
  have hcopy : .access (.copy ⟨0, 0, 2 ^ 64 - 1⟩ 1)
      ∈ (Machine.runOps (σ := Unit) 64 ⟨fun _ => (0 : Nat), 0, 0, 0, false, false⟩
          [.writeSome (fun _ => 7) 1]).trace := by
    decide +kernel
  exact ⟨_, hinit, rfl, hcopy, fun hsafe => absurd (hsafe.2 _ hcopy).1 (by decide)⟩

end Init

end Streamlike
