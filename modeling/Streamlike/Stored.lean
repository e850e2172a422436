import Streamlike.Content

/-!
# A content that is written to

What a file is for: bytes that a write overwrites and extends, and a
position. A write behind the end fills the gap. A seek goes to any position
up to a limit, and is refused otherwise.

`writeAt` of a part and then of the rest is `writeAt` of the whole
(`writeAt_append`), which is why it cannot be seen when a buffer of
written bytes is carried out.
-/

namespace Streamlike

variable {α : Type} [Inhabited α]

/-! ## Writing at an offset -/

/-- What is in front of a write at `off`. -/
def headTo (d : List α) (off : Nat) : List α :=
  d.take off ++ List.replicate (off - d.length) default

/-- `b` written at `off`. -/
def writeAt (d : List α) (off : Nat) (b : List α) : List α :=
  if b.isEmpty then d else headTo d off ++ b ++ d.drop (off + b.length)

@[simp] theorem length_headTo (d : List α) (off : Nat) : (headTo d off).length = off := by
  rw [headTo, List.length_append, List.length_take, List.length_replicate]
  omega

@[simp] theorem writeAt_nil (d : List α) (off : Nat) : writeAt d off [] = d := rfl

theorem writeAt_of_ne {b : List α} (d : List α) (off : Nat) (hb : b ≠ []) :
    writeAt d off b = headTo d off ++ b ++ d.drop (off + b.length) :=
  if_neg (by simpa using hb)

theorem length_writeAt {b : List α} (d : List α) (off : Nat) (hb : b ≠ []) :
    (writeAt d off b).length = max d.length (off + b.length) := by
  rw [writeAt_of_ne d off hb]
  simp only [List.length_append, length_headTo, List.length_drop]
  omega

theorem length_le_writeAt (d : List α) (off : Nat) (b : List α) :
    d.length ≤ (writeAt d off b).length := by
  by_cases hb : b = []
  · subst hb
    exact Nat.le_refl _
  · rw [length_writeAt d off hb]
    exact Nat.le_max_left _ _

/-- What is written is read back. -/
theorem drop_writeAt {b : List α} (d : List α) (off : Nat) (hb : b ≠ []) :
    (writeAt d off b).drop off = b ++ d.drop (off + b.length) := by
  rw [writeAt_of_ne d off hb, List.append_assoc]
  exact List.drop_left' (length_headTo d off)

/-- Behind the write the content is as it was. -/
theorem drop_behind {b : List α} (d : List α) (off : Nat) (hb : b ≠ []) :
    (writeAt d off b).drop (off + b.length) = d.drop (off + b.length) := by
  rw [← List.drop_drop, drop_writeAt d off hb, List.drop_left]

/-- In front of the write the content is as it was. -/
theorem headTo_writeAt {b : List α} (d : List α) (off : Nat) (hb : b ≠ []) :
    headTo (writeAt d off b) (off + b.length) = headTo d off ++ b := by
  have hfull : off + b.length - (writeAt d off b).length = 0 := by
    rw [length_writeAt d off hb]
    omega
  rw [headTo, hfull, List.replicate_zero, List.append_nil, writeAt_of_ne d off hb]
  exact List.take_left' (by rw [List.length_append, length_headTo])

/-- A write in two parts. -/
theorem writeAt_append (d : List α) (off : Nat) (b b' : List α) :
    writeAt (writeAt d off b) (off + b.length) b' = writeAt d off (b ++ b') := by
  by_cases hb : b = []
  · rw [hb, writeAt_nil, List.length_nil, Nat.add_zero, List.nil_append]
  by_cases hb' : b' = []
  · rw [hb', writeAt_nil, List.append_nil]
  have hne : b ++ b' ≠ [] := fun h => hb (List.append_eq_nil_iff.mp h).1
  rw [writeAt_of_ne _ _ hb', headTo_writeAt d off hb, writeAt_of_ne d off hne, List.length_append,
    ← List.drop_drop, drop_behind d off hb, List.drop_drop, Nat.add_assoc, List.append_assoc _ b]

/-- A part of what is written, read back. -/
theorem take_drop_writeAt {b : List α} (d : List α) (off : Nat) {skip len : Nat}
    (h : skip + len ≤ b.length) :
    ((writeAt d off b).drop (off + skip)).take len = (b.drop skip).take len := by
  by_cases hb : b = []
  · obtain rfl : len = 0 := by
      rw [hb, List.length_nil] at h
      omega
    rw [List.take_zero, List.take_zero]
  · rw [← List.drop_drop, drop_writeAt d off hb, List.drop_append_of_le_length (by omega),
      List.take_append_of_le_length (by rw [List.length_drop]; omega)]

/-- What is not written over stays. -/
theorem take_drop_elsewhere {b : List α} {d : List α} {off lo len : Nat}
    (hin : lo + len ≤ d.length) (h : lo + len ≤ off ∨ off + b.length ≤ lo) :
    ((writeAt d off b).drop lo).take len = (d.drop lo).take len := by
  by_cases hb : b = []
  · rw [hb, writeAt_nil]
  rcases h with hbefore | hbehind
  · have htake : (writeAt d off b).take (lo + len) = d.take (lo + len) := by
      rw [writeAt_of_ne d off hb, List.append_assoc,
        List.take_append_of_le_length (by rw [length_headTo]; exact hbefore), headTo,
        List.take_append_of_le_length (by rw [List.length_take]; omega), List.take_take,
        Nat.min_eq_left hbefore]
    rw [List.take_drop, List.take_drop, htake]
  · obtain ⟨skip, rfl⟩ := Nat.exists_eq_add_of_le hbehind
    rw [← List.drop_drop, drop_behind d off hb, List.drop_drop]

/-! ## The system -/

/-- What the offset of a seek is relative to. -/
inductive Origin where
  | start
  | current
  | stop
deriving Repr, DecidableEq

/-- A call that returned, and what `tell` says after it. -/
inductive StoredEvent (α : Type) where
  | read (len : Nat) (bytes : List α) (tell : Int)
  | write (bytes : List α) (tell : Int)
  | seek (offset : Int) (origin : Option Origin) (code tell : Int)
deriving Repr, DecidableEq

inductive StoredCall (α : Type) where
  | read (len : Nat)
  | write (bytes : List α)
  | seek (offset : Int) (origin : Option Origin)

/-- The content, a position, and the history of the calls. -/
structure Stored (α : Type) where
  data : List α
  pos : Nat
  trace : List (StoredEvent α)

/-- Where a seek goes to. -/
def Origin.target (pos length : Nat) (offset : Int) : Origin → Int
  | .start => offset
  | .current => pos + offset
  | .stop => length + offset

/-- Seeks go to positions up to `most`. -/
def storedStep (most : Nat) (a : StoredCall α) (st : Stored α) : Stored α :=
  match a with
  | .read len =>
      let bytes := (st.data.drop st.pos).take len
      { st with
        pos := st.pos + bytes.length
        trace := st.trace ++ [.read len bytes (st.pos + bytes.length : Nat)] }
  | .write bytes =>
      { data := writeAt st.data st.pos bytes
        pos := st.pos + bytes.length
        trace := st.trace ++ [.write bytes (st.pos + bytes.length : Nat)] }
  | .seek offset origin =>
      match origin.map (Origin.target st.pos st.data.length offset) with
      | some target =>
          if 0 ≤ target ∧ target ≤ most then
            { st with
              pos := target.toNat
              trace := st.trace ++ [.seek offset origin 0 target] }
          else { st with trace := st.trace ++ [.seek offset origin (-1) st.pos] }
      | none => { st with trace := st.trace ++ [.seek offset origin (-1) st.pos] }

section Seek

variable {most : Nat} {st : Stored α} {offset : Int} {origin : Option Origin}

theorem storedStep_seek {target : Int}
    (h : origin.map (Origin.target st.pos st.data.length offset) = some target)
    (hpos : 0 ≤ target ∧ target ≤ most) :
    storedStep most (.seek offset origin) st
      = ⟨st.data, target.toNat, st.trace ++ [.seek offset origin 0 target]⟩ := by
  rw [storedStep]
  split
  · next target' heq =>
    obtain rfl := Option.some.inj (heq.symm.trans h)
    exact if_pos hpos
  · next heq => cases heq.symm.trans h

theorem storedStep_refused
    (h : ∀ target, origin.map (Origin.target st.pos st.data.length offset) = some target →
      ¬ (0 ≤ target ∧ target ≤ most)) :
    storedStep most (.seek offset origin) st
      = ⟨st.data, st.pos, st.trace ++ [.seek offset origin (-1) st.pos]⟩ := by
  rw [storedStep]
  split
  · next target heq => exact if_neg (h target heq)
  · rfl

end Seek

/-- The content `d`, read, written and sought from its beginning on. -/
def stored (most : Nat) (d : List α) : Lts (Stored α) (StoredCall α) where
  init st := st = ⟨d, 0, []⟩
  step a st := some (storedStep most a st)

end Streamlike
