import Streamlike.CircbufOffset

/-!
# Writing from a source

`write_some2_` is `write_some_` with the copies replaced by calls of a
writer. `sourceWriter` is the writer that hands out a sequence of bytes,
as many as it is asked for or all that is left; with it the two routines
do the same (`writeSome2_eq_writeSome`), and the shortage flag tells a
source that ended from a buffer that is full.
-/

namespace Streamlike

variable {α σ : Type}

/-- The writer whose context is what is left of a sequence of bytes. -/
def sourceWriter : Writer (List α) α where
  call s r := (s.take r.length ++ r.drop s.length, min r.length s.length, s.drop r.length)
  length_call s r := by
    simp only [List.length_append, List.length_take, List.length_drop]
    omega
  ret_le _ _ := Nat.min_le_left _ _

/-- One call hands out the next bytes and keeps the rest. -/
theorem ask_source (size : Nat) (r : Region) (f : Fetch (List α) α) :
    (f.ask sourceWriter size r).1 = min r.length f.ctx.length
      ∧ (f.ask sourceWriter size r).2.got = f.got ++ f.ctx.take r.length
      ∧ (f.ask sourceWriter size r).2.ctx = f.ctx.drop r.length := by
  simp only [Fetch.ask, sourceWriter, ByteMem.length_read, true_and, and_true]
  rw [List.take_left' (List.length_take ..)]

/-- The calls together hand out the first bytes of the source, by
induction on the regions. -/
theorem writeAndReturn_source {size off n : Nat} {regions : List Region}
    (ht : Tiles size off regions n) :
    ∀ f : Fetch (List α) α,
      (writeAndReturn_ sourceWriter size regions f).got = f.got ++ f.ctx.take n
        ∧ (writeAndReturn_ sourceWriter size regions f).ctx = f.ctx.drop n := by
  induction ht with
  | nil => intro f; simp [writeAndReturn_]
  | @cons r rest n _ _ ih =>
      intro f
      obtain ⟨hwritten, hgot, hctx⟩ := ask_source size r f
      simp only [writeAndReturn_]
      split
      · next hshort =>
        -- the source has ended, so more regions would get nothing either
        have hend : f.ctx.length < r.length := by omega
        rw [hgot, hctx, List.take_of_length_le hend.le, List.take_of_length_le (by omega),
          List.drop_eq_nil_of_le hend.le, List.drop_eq_nil_of_le (by omega)]
        exact ⟨rfl, rfl⟩
      · next hfull =>
        obtain ⟨hgot', hctx'⟩ := ih (f.ask sourceWriter size r).2
        rw [hgot', hctx', hgot, hctx, List.append_assoc, ← List.take_add, List.drop_drop]
        exact ⟨rfl, rfl⟩

/-- The bytes a caller's buffer holding `S` gives to a plain write. -/
theorem read_source (buf : ByteMem α) (S : List α) {n : Nat} (h : n ≤ S.length) :
    (buf.write 0 S).read 0 n = S.take n := by
  rw [← ByteMem.take_read _ _ h, ByteMem.read_write_self]

/-- What `circbuf_write_some2` from the source `S` does, next to
`circbuf_write_some` of its first `min len |S|` bytes in `buf`. -/
structure Circbuf.WritesAlike (cb : Circbuf α) (S : List α) (len : Nat) (eof : Option Bool)
    (buf : ByteMem α) : Prop where
  woff : (circbufWriteSome2 cb sourceWriter S len eof).1.woff
    = (circbufWriteSome cb buf (min len S.length)).1.woff
  roff : (circbufWriteSome2 cb sourceWriter S len eof).1.roff
    = (circbufWriteSome cb buf (min len S.length)).1.roff
  unread : (circbufWriteSome2 cb sourceWriter S len eof).1.unread
    = (circbufWriteSome cb buf (min len S.length)).1.unread
  ret : (circbufWriteSome2 cb sourceWriter S len eof).2.total
    = (circbufWriteSome cb buf (min len S.length)).2
  consumed : (circbufWriteSome2 cb sourceWriter S len eof).2.total ≤ S.length
    ∧ (circbufWriteSome2 cb sourceWriter S len eof).2.ctx
      = S.drop (circbufWriteSome2 cb sourceWriter S len eof).2.total
  eof : (circbufWriteSome2 cb sourceWriter S len eof).2.eof
    = if S.length < min len (circbufGetSize cb - 1 - circbufGetLength cb)
      then eof.map fun _ => true else eof

section Source

variable {c : Nat} {cb : Circbuf α} {f : Fifo α c}

/-- The variables of `write_some2_` at its return: it has delivered the
first `min len free` bytes of the source. -/
theorem writeSome2_source (h : Represents cb f) (S : List α) (len : Nat) (eof : Option Bool) :
    Fetch.Delivers ⟨cb.data, S, cb.woff, 0, eof, []⟩
        (circbufWriteSome2 cb sourceWriter S len eof).2 cb.size cb.woff (min len f.free)
        (S.take (min len f.free))
      ∧ (circbufWriteSome2 cb sourceWriter S len eof).2.ctx = S.drop (min len f.free) := by
  have hlt := ByteRing.used_lt h.wf.woff_lt h.wf.roff_le
  have hfree := h.free
  have ht := writeSome2_calls_tiles (n := len) h.wf.woff_lt h.wf.roff_le
  rw [← hfree] at ht
  obtain ⟨hgot, hctx⟩ := writeAndReturn_source ht ⟨cb.data, S, cb.woff, 0, eof, []⟩
  obtain ⟨d, hd⟩ := writeAndReturn_delivers sourceWriter ht
    ⟨cb.data, S, cb.woff, 0, eof, []⟩ rfl h.wf.woff_lt (by omega)
  obtain rfl : d = S.take (min len f.free) :=
    (List.nil_append d).symm.trans (hd.got.symm.trans hgot)
  exact ⟨hd, hctx⟩

/-- Any two moves of the same count from the same offset end together. -/
theorem writeSome_woff (h : Represents cb f) (buf : ByteMem α) (n : Nat) :
    (circbufWriteSome cb buf n).1.woff = (cb.woff + min n f.free) % cb.size := by
  have hm := writeSome_moves (n := n) h.wf.woff_lt h.wf.roff_le
  have hoff := writeSome_off_lt (n := n) h.wf.woff_lt h.wf.roff_le
  rw [h.free, ← hm.off_mod, Nat.mod_eq_of_lt hoff]
  rfl

theorem writesAlike_of_represents (h : Represents cb f) (S : List α) (len : Nat)
    (eof : Option Bool) (buf : ByteMem α) : cb.WritesAlike S len eof (buf.write 0 S) := by
  obtain ⟨hdel, hctx⟩ := writeSome2_source h S len eof
  obtain ⟨f₁, hrep₁, -, -, hq₁⟩ := writeSome2_refines h sourceWriter S len eof
  obtain ⟨f₂, hrep₂, hret, hq₂⟩ := writeSome_refines h (buf.write 0 S) (min len S.length)
  set d := S.take (min len f.free) with hd
  have hdlen : d.length = min (min len S.length) f.free := by
    rw [hd, List.length_take]
    omega
  have htotal : (circbufWriteSome2 cb sourceWriter S len eof).2.total = d.length :=
    hdel.total.trans (Nat.zero_add _)
  have hgot : (circbufWriteSome2 cb sourceWriter S len eof).2.got = d :=
    hdel.got.trans (List.nil_append d)
  constructor
  · rw [writeSome_woff h, ← hdlen]
    exact hdel.woff
  · rfl
  · rw [← hrep₁.q, ← hrep₂.q, hq₁, hq₂, hgot, hd, read_source buf S (by omega)]
    refine congrArg _ (List.take_eq_take_iff.mpr ?_)
    omega
  · rw [htotal, hret, hdlen]
  · rw [htotal, hctx, hdlen]
    refine ⟨by omega, ?_⟩
    rcases Nat.le_total (min len f.free) S.length with hle | hge
    · rw [show min (min len S.length) f.free = min len f.free by omega]
    · rw [List.drop_eq_nil_of_le hge, List.drop_eq_nil_of_le (by omega)]
  · have hfree : circbufGetSize cb - 1 - circbufGetLength cb = f.free := h.free.symm
    rw [hdel.eof, hfree, hdlen]
    refine if_congr ?_ rfl rfl
    omega

end Source

/-- **The callback write path agrees with the plain one** in every
reachable state, for every source and every length. -/
theorem writeSome2_eq_writeSome (env : InitEnv α) (c : Nat) (cb : Circbuf α)
    (hinit : circbufInit env c = some cb) (halloc : env.Allocatable (c + 1))
    (ops : List (Op σ α)) (S : List α) (len : Nat) (eof : Option Bool) (buf : ByteMem α) :
    (runOps cb ops).1.WritesAlike S len eof (buf.write 0 S) := by
  obtain ⟨f, hrep⟩ := runOps_represents hinit halloc ops
  exact writesAlike_of_represents hrep S len eof buf

/-- A wrapped write of three bytes asked for and two given. -/
theorem writeSome2_eq_writeSome_run :
    ∃ cb : Circbuf Nat, circbufInit (.ample 0) 3 = some cb
      ∧ (runOps (σ := Unit) cb [.writeSome (fun _ => 7) 3, .disposeSome 3]).1.WritesAlike
          [8, 9] 3 (some false) (ByteMem.write (fun _ => 0) 0 [8, 9]) :=
  ⟨_, rfl, writeSome2_eq_writeSome (.ample 0) 3 _ rfl (by decide) _ _ _ _ _⟩

end Streamlike
