import Mathlib.Data.List.Range
import Mathlib.Data.List.TakeDrop
import Mathlib.Data.Nat.ModEq

/-!
# Byte memories and ring windows

A memory is a function from cell numbers to bytes, of any byte type.
`ByteMem.read` is a contiguous region of it, `ByteRing.window` the `len` cells
that start at `start` and wrap at `size`. `ByteRing.used` is the number of
cells from a read offset to a write offset on the ring; the two
`used_advance` lemmas say how it moves when either offset does, and are
the only place where the wrap-around is reasoned about.

The read offset may be given in two ways at the end of the ring: as `0`
and as `size`. Everything here accepts both, so an offset is an
`off ≤ size` that matters only modulo `size`.
-/

/-- A byte memory: the contents of every cell. -/
abbrev ByteMem (α : Type) := Nat → α

namespace ByteMem

variable {α : Type}

/-- The bytes of the region `[off, off + len)`. -/
def read (m : ByteMem α) (off len : Nat) : List α :=
  (List.range len).map fun j => m (off + j)

/-- One cell overwritten. -/
def set (m : ByteMem α) (i : Nat) (b : α) : ByteMem α :=
  fun k => if k = i then b else m k

/-- A region overwritten by a list of bytes. -/
def write (m : ByteMem α) (off : Nat) (l : List α) : ByteMem α :=
  fun k => if off ≤ k then (l[k - off]?).getD (m k) else m k

/-- `len` bytes of `src` from `s` copied into `dst` at `d`. -/
def memcpy (dst : ByteMem α) (d : Nat) (src : ByteMem α) (s len : Nat) : ByteMem α :=
  fun k => if d ≤ k ∧ k < d + len then src (s + (k - d)) else dst k

@[simp] theorem length_read (m : ByteMem α) (off len : Nat) :
    (m.read off len).length = len := by
  simp [read]

@[simp] theorem read_zero (m : ByteMem α) (off : Nat) : m.read off 0 = [] := rfl

theorem read_add (m : ByteMem α) (off a b : Nat) :
    m.read off (a + b) = m.read off a ++ m.read (off + a) b := by
  simp [read, List.range_add, Nat.add_assoc]

theorem read_congr {m m' : ByteMem α} {off off' len : Nat}
    (h : ∀ j < len, m (off + j) = m' (off' + j)) :
    m.read off len = m'.read off' len :=
  List.map_congr_left fun j hj => h j (List.mem_range.mp hj)

theorem take_read (m : ByteMem α) (off : Nat) {k len : Nat} (h : k ≤ len) :
    (m.read off len).take k = m.read off k := by
  obtain ⟨d, rfl⟩ := Nat.exists_eq_add_of_le h
  rw [read_add, List.take_left' (by simp)]

theorem drop_read (m : ByteMem α) (off : Nat) {k len : Nat} (h : k ≤ len) :
    (m.read off len).drop k = m.read (off + k) (len - k) := by
  obtain ⟨d, rfl⟩ := Nat.exists_eq_add_of_le h
  rw [read_add, List.drop_left' (by simp), Nat.add_sub_cancel_left]

@[simp] theorem set_self (m : ByteMem α) (i : Nat) (b : α) : m.set i b i = b := by
  simp [set]

theorem set_of_ne (m : ByteMem α) {i k : Nat} (b : α) (h : k ≠ i) : m.set i b k = m k := by
  simp [set, h]

theorem write_of_lt (m : ByteMem α) {off k : Nat} (l : List α) (h : k < off) :
    m.write off l k = m k := by
  simp [write, Nat.not_le.mpr h]

theorem write_of_ge (m : ByteMem α) {off k : Nat} (l : List α) (h : off + l.length ≤ k) :
    m.write off l k = m k := by
  have hnone : l[k - off]? = none := List.getElem?_eq_none (by omega)
  simp [write, hnone]

theorem read_write_self (m : ByteMem α) (off : Nat) (l : List α) :
    (m.write off l).read off l.length = l := by
  refine List.ext_getElem (by simp) fun j hj hj' => ?_
  simp [read, write, hj']

/-- What was there up to the region, and then the region. -/
theorem read_write_append (m : ByteMem α) (off : Nat) (l : List α) :
    (m.write off l).read 0 (off + l.length) = m.read 0 off ++ l := by
  rw [read_add, Nat.zero_add, read_write_self]
  congr 1
  exact read_congr fun j hj => write_of_lt m l (by omega)

/-! ## Writing cell by cell -/

section Fold

variable {ι : Type} (f : ι → Nat) (g : ι → α)

theorem foldl_set_of_ne {l : List ι} {m : ByteMem α} {k : Nat} (h : ∀ x ∈ l, k ≠ f x) :
    (l.foldl (fun m x => m.set (f x) (g x)) m) k = m k := by
  induction l generalizing m with
  | nil => rfl
  | cons x xs ih =>
      rw [List.foldl_cons, ih fun y hy => h y (List.mem_cons_of_mem _ hy),
        set_of_ne _ _ (h x List.mem_cons_self)]

/-- Writes to pairwise different cells all survive. -/
theorem foldl_set_of_mem {l : List ι} (hl : l.Pairwise fun x y => f x ≠ f y)
    {m : ByteMem α} {x : ι} (hx : x ∈ l) :
    (l.foldl (fun m x => m.set (f x) (g x)) m) (f x) = g x := by
  induction l generalizing m with
  | nil => cases hx
  | cons y ys ih =>
      rw [List.pairwise_cons] at hl
      rw [List.foldl_cons]
      rcases List.mem_cons.mp hx with rfl | hx'
      · rw [foldl_set_of_ne f g hl.1, set_self]
      · exact ih hl.2 hx'

/-- A `memcpy` is its bytes written one after the other. -/
theorem memcpy_eq_foldl (dst src : ByteMem α) (d s len : Nat) :
    dst.memcpy d src s len
      = (List.range len).foldl (fun m j => m.set (d + j) (src (s + j))) dst := by
  funext k
  by_cases hk : d ≤ k ∧ k < d + len
  · obtain ⟨j, rfl⟩ := Nat.exists_eq_add_of_le hk.1
    have hpair : (List.range len).Pairwise fun x y => d + x ≠ d + y :=
      List.pairwise_lt_range.imp fun h => by omega
    rw [foldl_set_of_mem (fun j => d + j) (fun j => src (s + j)) hpair
      (List.mem_range.mpr (by omega))]
    simp [memcpy, hk.2]
  · rw [foldl_set_of_ne (fun j => d + j) (fun j => src (s + j)) fun j hj => by
      have := List.mem_range.mp hj; omega]
    simp only [memcpy, if_neg hk]

end Fold

end ByteMem

namespace ByteRing

variable {α : Type}

/-- The `len` cells from `start`, wrapping at `size`. -/
def window (m : ByteMem α) (size start len : Nat) : List α :=
  (List.range len).map fun j => m ((start + j) % size)

/-- Cells from the read offset up to the write offset. -/
def used (size roff woff : Nat) : Nat :=
  if woff ≥ roff then woff - roff else size - roff + woff

/-! ## Windows -/

@[simp] theorem length_window (m : ByteMem α) (size start len : Nat) :
    (window m size start len).length = len := by
  simp [window]

@[simp] theorem window_zero (m : ByteMem α) (size start : Nat) :
    window m size start 0 = [] := rfl

theorem window_add (m : ByteMem α) (size start a b : Nat) :
    window m size start (a + b)
      = window m size start a ++ window m size (start + a) b := by
  simp [window, List.range_add, Nat.add_assoc]

theorem window_congr {m m' : ByteMem α} {size start start' len : Nat}
    (h : ∀ j < len, m ((start + j) % size) = m' ((start' + j) % size)) :
    window m size start len = window m' size start' len :=
  List.map_congr_left fun j hj => h j (List.mem_range.mp hj)

/-- Only the start's residue matters. -/
theorem window_start {m : ByteMem α} {size start : Nat} (start' len : Nat)
    (h : start % size = start' % size) :
    window m size start len = window m size start' len :=
  window_congr fun j _ => by rw [Nat.add_mod, h, ← Nat.add_mod]

theorem take_window (m : ByteMem α) (size start : Nat) {k len : Nat} (h : k ≤ len) :
    (window m size start len).take k = window m size start k := by
  obtain ⟨d, rfl⟩ := Nat.exists_eq_add_of_le h
  rw [window_add, List.take_left' (by simp)]

theorem drop_window (m : ByteMem α) (size start : Nat) {k len : Nat} (h : k ≤ len) :
    (window m size start len).drop k = window m size (start + k) (len - k) := by
  obtain ⟨d, rfl⟩ := Nat.exists_eq_add_of_le h
  rw [window_add, List.drop_left' (by simp), Nat.add_sub_cancel_left]

/-- A window that does not reach the end of the ring is a plain region. -/
theorem window_eq_read (m : ByteMem α) {size start len : Nat} (h : start + len ≤ size) :
    window m size start len = m.read start len :=
  List.map_congr_left fun j hj => by
    rw [Nat.mod_eq_of_lt (by have := List.mem_range.mp hj; omega)]

/-! ## Cells and offsets -/

/-- Below two turns the residue is one comparison and one subtraction. -/
theorem mod_eq_ite {a size : Nat} (h : a < 2 * size) :
    a % size = if a < size then a else a - size := by
  split
  · next hlt => exact Nat.mod_eq_of_lt hlt
  · next hge => rw [Nat.mod_eq_sub_mod (by omega), Nat.mod_eq_of_lt (by omega)]

/-- Cells less than one turn apart are different. -/
theorem cell_ne {size start i j : Nat} (hij : i < j) (hj : j < i + size) :
    (start + i) % size ≠ (start + j) % size := by
  intro heq
  have hzero : (start + j - (start + i)) % size = 0 :=
    Nat.sub_mod_eq_zero_of_mod_eq heq.symm
  rw [Nat.mod_eq_of_lt (by omega)] at hzero
  omega

section Offsets

variable {size roff woff : Nat}

theorem used_of_le (h : roff ≤ woff) : used size roff woff = woff - roff := if_pos h

theorem used_of_lt (h : woff < roff) : used size roff woff = size - roff + woff :=
  if_neg (by omega)

theorem used_lt (hw : woff < size) (hr : roff ≤ size) : used size roff woff < size := by
  unfold used
  split <;> omega

/-- The write offset is `used` cells after the read offset. -/
theorem cell_used (hw : woff < size) (hr : roff ≤ size) :
    (roff + used size roff woff) % size = woff := by
  unfold used
  split
  · rw [Nat.add_sub_of_le (by assumption), Nat.mod_eq_of_lt hw]
  · rw [show roff + (size - roff + woff) = size + woff by omega, Nat.add_mod_left,
      Nat.mod_eq_of_lt hw]

/-- Offsets that count modulo the size what has passed them. -/
theorem used_eq_mod {r w : Nat} (hw : woff < size) (hr : roff ≤ size)
    (hroff : roff % size = r % size) (hwoff : woff = w % size) (hle : r ≤ w) :
    used size roff woff = (w - r) % size := by
  have hcell : (r + used size roff woff) % size = (r + (w - r)) % size := by
    rw [Nat.add_mod, ← hroff, ← Nat.add_mod, cell_used hw hr, hwoff, Nat.add_sub_of_le hle]
  exact (Nat.mod_eq_of_lt (used_lt hw hr)).symm.trans (Nat.ModEq.add_left_cancel' r hcell)

/-- Publishing `k` more bytes into the free part. -/
theorem used_advance_woff {k : Nat} (hw : woff < size) (hr : roff ≤ size)
    (hk : k ≤ size - 1 - used size roff woff) :
    used size roff ((woff + k) % size) = used size roff woff + k := by
  have hd := used_lt hw hr
  rw [mod_eq_ite (by omega)]
  unfold used at *
  split_ifs at hk hd ⊢ <;> omega

/-- Releasing the `k` oldest bytes. -/
theorem used_advance_roff {k roff' : Nat} (hw : woff < size) (hr : roff ≤ size)
    (hk : k ≤ used size roff woff) (hr' : roff' ≤ size)
    (h : roff' % size = (roff + k) % size) :
    used size roff' woff = used size roff woff - k := by
  have hd := used_lt hw hr
  rw [mod_eq_ite (by omega), mod_eq_ite (by omega)] at h
  unfold used at *
  split_ifs at h hk hd ⊢ <;> omega

/-- A window from the write offset is the continuation of the one from the
read offset. -/
theorem window_woff {m : ByteMem α} (hw : woff < size) (hr : roff ≤ size) (len : Nat) :
    window m size woff len = window m size (roff + used size roff woff) len :=
  window_start _ len (by rw [cell_used hw hr, Nat.mod_eq_of_lt hw])

@[simp] theorem used_self : used size woff woff = 0 := by
  simp [used]

/-- Equal offsets are the only empty state with a read offset inside the
ring. -/
theorem used_eq_zero (hr : roff < size) :
    used size roff woff = 0 ↔ roff = woff := by
  unfold used
  split <;> omega

end Offsets

end ByteRing
