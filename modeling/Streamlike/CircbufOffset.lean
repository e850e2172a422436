import Streamlike.CircbufFifo

/-!
# Offsets at the end of the array

Every routine that moves an offset brings it back to the beginning when it
reaches the end of the array, except one branch of `read_some_`: a read of
exactly the cells from `roff` to the end, of a buffer whose unread bytes
go on at the beginning, leaves `roff = size`. `Op.ReadsToEnd` is that
call. A run keeps its offsets inside the array exactly as long as no call
is one (`offsets_inside_iff`).

The offset at the end is harmless to every call but `circbuf_input_some`,
which counts no cell before the end then and so shows nothing although
bytes are unread (`zeroCopy_iff`).
-/

namespace Streamlike

variable {α σ : Type}

/-! ## Conditions on the calls of a run -/

/-- Every call of the sequence meets `ok` on the buffer it is made on. -/
def EachCall (ok : Circbuf α → Op σ α → Prop) : Circbuf α → List (Op σ α) → Prop
  | _, [] => True
  | cb, op :: ops => ok cb op ∧ EachCall ok (op.run cb).1 ops

instance EachCall.decidable (ok : Circbuf α → Op σ α → Prop) [∀ cb op, Decidable (ok cb op)]
    (cb : Circbuf α) (ops : List (Op σ α)) : Decidable (EachCall ok cb ops) :=
  match ops with
  | [] => .isTrue trivial
  | op :: ops =>
      have := EachCall.decidable ok (op.run cb).1 ops
      inferInstanceAs (Decidable (ok cb op ∧ EachCall ok (op.run cb).1 ops))

/-- A `circbuf_read_some` of exactly the cells up to the end of the array,
of a buffer whose unread bytes go on at its beginning. -/
def Op.ReadsToEnd (cb : Circbuf α) : Op σ α → Prop
  | .readSome _ n => cb.woff < cb.roff ∧ n = cb.size - cb.roff
  | _ => False

instance (cb : Circbuf α) : (op : Op σ α) → Decidable (op.ReadsToEnd cb)
  | .readSome _ n => inferInstanceAs (Decidable (cb.woff < cb.roff ∧ n = cb.size - cb.roff))
  | .writeSome _ _ | .writeSome2 _ _ _ _ | .disposeSome _ | .reset => .isFalse not_false

/-! ## Where the offsets end -/

/-- Both offsets are cell indices, and they are equal exactly when no byte
is unread. -/
structure Circbuf.Inside (cb : Circbuf α) : Prop where
  roff_lt : cb.roff < cb.size
  woff_lt : cb.woff < cb.size
  empty_iff : cb.roff = cb.woff ↔ cb.unread = []

theorem unread_eq_nil {cb : Circbuf α} : cb.unread = [] ↔ circbufGetLength cb = 0 := by
  rw [← length_unread, List.length_eq_zero_iff]

/-- With both offsets in the array, the empty test is right. -/
theorem inside_iff {cb : Circbuf α} (hwf : cb.Wf) : cb.Inside ↔ cb.roff < cb.size := by
  constructor
  · exact fun h => h.roff_lt
  · intro hr
    refine ⟨hr, hwf.woff_lt, ?_⟩
    rw [unread_eq_nil, circbufGetLength_eq, ByteRing.used_eq_zero hr]

/-- The one branch of `read_some_` that stops at the end. -/
theorem readSome_off_eq_size {size n roff woff : Nat} (hw : woff < size) (hr : roff ≤ size) :
    (readSome_ size n roff woff).off = size ↔ woff < roff ∧ n = size - roff := by
  unfold readSome_
  dsimp only
  split_ifs <;> dsimp only <;> omega

/-- `circbuf_dispose_some` wraps the offset. -/
theorem disposeSome_roff_lt {cb : Circbuf α} (hwf : cb.Wf) (n : Nat) :
    (circbufDisposeSome cb n).1.roff < cb.size := by
  have hw := hwf.woff_lt
  have hr := hwf.roff_le
  have hlt := ByteRing.used_lt hw hr
  unfold circbufDisposeSome
  rw [circbufGetLength_eq]
  dsimp only
  split_ifs <;> omega

/-- What one call does to an offset inside the array. -/
theorem op_roff_lt {c : Nat} {cb : Circbuf α} {f : Fifo α c} (h : Represents cb f)
    (hr : cb.roff < cb.size) (op : Op σ α) :
    (op.run cb).1.roff < cb.size ↔ ¬ op.ReadsToEnd cb := by
  cases op with
  | writeSome buf n => exact iff_of_true hr not_false
  | writeSome2 w ctx n eof => exact iff_of_true hr not_false
  | readSome buf n =>
      have hle := (readSome_moves (n := n) h.wf.woff_lt h.wf.roff_le).off_le
      have hend := readSome_off_eq_size (n := n) h.wf.woff_lt h.wf.roff_le
      change (readSome_ cb.size n cb.roff cb.woff).off < cb.size
        ↔ ¬ (cb.woff < cb.roff ∧ n = cb.size - cb.roff)
      rw [← hend]
      omega
  | disposeSome n => exact iff_of_true (disposeSome_roff_lt h.wf n) not_false
  | reset =>
      have hpos : 0 < cb.size := by omega
      exact iff_of_true hpos not_false

/-- The run, by induction on its calls: the offset is in the array after
every call exactly when no call reads to the end. -/
theorem runOps_roff_lt {c : Nat} (ops : List (Op σ α)) :
    ∀ {cb : Circbuf α} {f : Fifo α c}, Represents cb f → cb.roff < cb.size →
      ((∀ k, (runOps cb (ops.take k)).1.roff < cb.size)
        ↔ EachCall (fun cb op => ¬ op.ReadsToEnd cb) cb ops) := by
  induction ops with
  | nil =>
      intro cb f h hr
      refine iff_of_true (fun k => ?_) trivial
      rw [List.take_nil]
      exact hr
  | cons op ops ih =>
      intro cb f h hr
      obtain ⟨f', hrep, -⟩ := op_refines h op
      have hsize : (op.run cb).1.size = cb.size := hrep.size.trans h.size.symm
      have hone := op_roff_lt h hr op
      have hrest := fun hlt => hsize ▸ ih hrep (hsize.symm ▸ hlt)
      constructor
      · intro hall
        have hlt : (op.run cb).1.roff < cb.size := hall 1
        exact ⟨hone.mp hlt, (hrest hlt).mp fun k => hall (k + 1)⟩
      · rintro ⟨hop, hops⟩ k
        cases k with
        | zero => exact hr
        | succ k => exact (hrest (hone.mpr hop)).mpr hops k

section Runs

variable {env : InitEnv α} {c : Nat} {cb : Circbuf α}

/-- After any number of calls the buffer still represents a queue. -/
theorem runOps_represents (hinit : circbufInit env c = some cb)
    (halloc : env.Allocatable (c + 1)) (ops : List (Op σ α)) :
    ∃ f : Fifo α c, Represents (runOps cb ops).1 f := by
  obtain ⟨f, hrep, -⟩ := runOps_refines ops (init_represents hinit halloc)
  exact ⟨f, hrep⟩

/-- The calls leave the array its size. -/
theorem runOps_size (hinit : circbufInit env c = some cb) (halloc : env.Allocatable (c + 1))
    (ops : List (Op σ α)) : (runOps cb ops).1.size = cb.size := by
  obtain ⟨f, hrep⟩ := runOps_represents hinit halloc ops
  rw [hrep.size, (init_represents hinit halloc).size]

theorem init_roff_lt (hinit : circbufInit env c = some cb)
    (halloc : env.Allocatable (c + 1)) : cb.roff < cb.size := by
  have hpos := (init_represents hinit halloc).wf.woff_lt
  obtain ⟨-, data, -, rfl⟩ := circbufInit_eq hinit
  exact hpos

/-- **Offsets stay inside the array** in exactly the runs without a read
to its end: after any number `k` of the calls, both offsets are cell
indices, and equal exactly when the buffer is empty. -/
theorem offsets_inside_iff (env : InitEnv α) (c : Nat) (cb : Circbuf α)
    (hinit : circbufInit env c = some cb) (halloc : env.Allocatable (c + 1))
    (ops : List (Op σ α)) :
    (∀ k, (runOps cb (ops.take k)).1.Inside)
      ↔ EachCall (fun cb op => ¬ op.ReadsToEnd cb) cb ops := by
  rw [← runOps_roff_lt ops (init_represents hinit halloc) (init_roff_lt hinit halloc)]
  refine forall_congr' fun k => ?_
  obtain ⟨f, hrep⟩ := runOps_represents hinit halloc (ops.take k)
  rw [inside_iff hrep.wf, runOps_size hinit halloc]

/-- A buffer of one byte, written, read and written again: the offsets stay
inside; a `circbuf_dispose_some` takes the second byte. -/
theorem offsets_inside_iff_run :
    ∃ cb : Circbuf Nat, circbufInit (.ample 0) 1 = some cb
      ∧ ∀ k, (runOps (σ := Unit) cb ([.writeSome (fun _ => 7) 1, .readSome (fun _ => 0) 1,
          .writeSome (fun _ => 8) 1, .disposeSome 1].take k)).1.Inside :=
  ⟨_, rfl, (offsets_inside_iff (.ample 0) 1 _ rfl (by decide) _).mpr (by decide)⟩

/-- The same with a `circbuf_read_some` of the second byte: it leaves
`roff = size`, and the empty buffer has different offsets. -/
theorem offsets_not_inside :
    ¬ ∀ (c : Nat) (cb : Circbuf Nat), circbufInit (.ample 0) c = some cb →
      (InitEnv.ample (0 : Nat)).Allocatable (c + 1) → ∀ ops : List (Op Unit Nat),
        (runOps cb ops).1.Inside := by
  intro hall
  have h := hall 1 _ rfl (by decide) [.writeSome (fun _ => 7) 1, .readSome (fun _ => 0) 1,
    .writeSome (fun _ => 8) 1, .readSome (fun _ => 0) 1]
  exact absurd h.roff_lt (by decide)

/-! ## The zero-copy path -/

/-- A `circbuf_input_some` of `len` shows the oldest unread bytes, at least
one if there is one, and a `circbuf_dispose_some` of the count it returned
releases what a `circbuf_read_some` of that many bytes would. -/
structure Circbuf.ZeroCopy (cb : Circbuf α) (len : Nat) : Prop where
  le : (circbufInputSome cb len).2 ≤ len
  inside : (circbufInputSome cb len).1 + (circbufInputSome cb len).2 ≤ cb.size
  le_unread : (circbufInputSome cb len).2 ≤ cb.unread.length
  oldest : cb.data.read (circbufInputSome cb len).1 (circbufInputSome cb len).2
    = cb.unread.take (circbufInputSome cb len).2
  pos : 0 < len → 0 < circbufGetLength cb → 0 < (circbufInputSome cb len).2
  dispose_ret : (circbufDisposeSome cb (circbufInputSome cb len).2).2
    = (circbufInputSome cb len).2
  dispose_unread : ∀ buf, (circbufDisposeSome cb (circbufInputSome cb len).2).1.unread
    = (circbufReadSome cb buf (circbufInputSome cb len).2).1.unread

/-- The count: no more than asked, than the cells up to the end of the
array, and than what is unread. -/
theorem inputSome_count {cb : Circbuf α} (hwf : cb.Wf) (len : Nat) :
    (circbufInputSome cb len).2 = min len (min (cb.size - cb.roff) (circbufGetLength cb)) := by
  have hw := hwf.woff_lt
  have hr := hwf.roff_le
  unfold circbufInputSome circbufGetLength
  dsimp only
  split_ifs <;> omega

/-- The cells shown are the oldest of the ring. -/
theorem inputSome_oldest {cb : Circbuf α} (hwf : cb.Wf) (len : Nat) :
    cb.data.read (circbufInputSome cb len).1 (circbufInputSome cb len).2
      = cb.unread.take (circbufInputSome cb len).2 := by
  have hr := hwf.roff_le
  have hcount := inputSome_count hwf len
  rw [Circbuf.unread, ByteRing.take_window _ _ _ (by omega),
    ByteRing.window_eq_read _ (by omega)]
  rfl

/-- Releasing what was shown is reading it. -/
theorem dispose_unread_eq_read {c : Nat} {cb : Circbuf α} {f : Fifo α c}
    (h : Represents cb f) (n : Nat) (buf : ByteMem α) :
    (circbufDisposeSome cb n).1.unread = (circbufReadSome cb buf n).1.unread := by
  rw [← (disposeSome_refines h n).1.q, ← (readSome_refines h buf n).1.q]

/-- Only the promise to show something can fail, and only at the end of
the array. -/
theorem zeroCopy_iff_state {c : Nat} {cb : Circbuf α} {f : Fifo α c} (h : Represents cb f)
    (len : Nat) :
    cb.ZeroCopy len ↔ cb.roff < cb.size ∨ len = 0 ∨ circbufGetLength cb = 0 := by
  have hr := h.wf.roff_le
  have hcount := inputSome_count h.wf len
  constructor
  · intro hz
    have hpos := hz.pos
    omega
  · intro hcond
    have hlen : (circbufInputSome cb len).2 ≤ cb.unread.length := by
      rw [length_unread]; omega
    refine ⟨by omega, ?_, hlen, inputSome_oldest h.wf len, by omega, ?_,
      dispose_unread_eq_read h _⟩
    · change cb.roff + (circbufInputSome cb len).2 ≤ cb.size
      omega
    · rw [(disposeSome_refines h _).2, h.q]
      exact Nat.min_eq_left hlen

/-- **The zero-copy path agrees with the copying path** in a reachable
state exactly when `roff` is inside the array or there is nothing to show;
so it does in every state of a run without a read to the end. -/
theorem zeroCopy_iff (env : InitEnv α) (c : Nat) (cb : Circbuf α)
    (hinit : circbufInit env c = some cb) (halloc : env.Allocatable (c + 1))
    (ops : List (Op σ α)) :
    (∀ len, (runOps cb ops).1.ZeroCopy len ↔ (runOps cb ops).1.roff < (runOps cb ops).1.size
        ∨ len = 0 ∨ circbufGetLength (runOps cb ops).1 = 0)
      ∧ (EachCall (fun cb op => ¬ op.ReadsToEnd cb) cb ops →
          ∀ k len, (runOps cb (ops.take k)).1.ZeroCopy len) := by
  constructor
  · intro len
    obtain ⟨f, hrep⟩ := runOps_represents hinit halloc ops
    exact zeroCopy_iff_state hrep len
  · intro hops k len
    obtain ⟨f, hrep⟩ := runOps_represents hinit halloc (ops.take k)
    refine (zeroCopy_iff_state hrep len).mpr (Or.inl ?_)
    rw [runOps_size hinit halloc]
    exact (runOps_roff_lt ops (init_represents hinit halloc)
      (init_roff_lt hinit halloc)).mpr hops k

/-- Two bytes that wrap are shown one at a time. -/
theorem zeroCopy_iff_run :
    ∃ cb : Circbuf Nat, circbufInit (.ample 0) 2 = some cb
      ∧ ∀ k len, (runOps (σ := Unit) cb ([.writeSome (fun _ => 7) 2, .disposeSome 2,
          .writeSome (fun j => 8 + j) 2, .disposeSome 1].take k)).1.ZeroCopy len :=
  ⟨_, rfl, (zeroCopy_iff (.ample 0) 2 _ rfl (by decide) _).2 (by decide)⟩

/-- A read to the end, and then a byte written at the beginning: the byte
is unread and `circbuf_input_some` shows nothing. -/
theorem zeroCopy_shows_nothing :
    ¬ ∀ (c : Nat) (cb : Circbuf Nat), circbufInit (.ample 0) c = some cb →
      (InitEnv.ample (0 : Nat)).Allocatable (c + 1) → ∀ (ops : List (Op Unit Nat)) (len : Nat),
        (runOps cb ops).1.ZeroCopy len := by
  intro hall
  have h := hall 1 _ rfl (by decide) [.writeSome (fun _ => 7) 1, .readSome (fun _ => 0) 1,
    .writeSome (fun _ => 8) 1, .readSome (fun _ => 0) 1, .writeSome (fun _ => 9) 1] 1
  exact absurd (h.pos Nat.one_pos (by decide)) (by decide)

end Runs

end Streamlike
