import Streamlike.Lts

/-!
# Reading and seeking a fixed content

What a stream is for, when nothing is written to it: a fixed list of bytes
and a position in it. A read takes bytes from the position on, a seek sets
the position, and both are seen by the user only through what they return
and what `tell` says after them.

`content D` allows a read to come up short anywhere and a seek to be
refused, which is all that a stream over another one can promise.
`Exact` are the calls that give all there is to give.
-/

namespace Streamlike

variable {α : Type}

/-- A call that returned, and what `tell` says after it. -/
inductive ContentEvent (α : Type) where
  | read (len : Nat) (bytes : List α) (tell : Int)
  | seek (offset code tell : Int)
deriving Repr, DecidableEq

/-- The calls, with what they decide: how many bytes a read gives, the code
of a seek. -/
inductive ContentCall where
  | read (len n : Nat)
  | seek (offset code : Int)

/-- A position, and the history of the calls. -/
structure Position (α : Type) where
  pos : Nat
  trace : List (ContentEvent α)

/-- The bytes that a read of `n` bytes gives. -/
def bytesAt (D : List α) (pos n : Nat) : List α := (D.drop pos).take n

def contentStep (D : List α) (a : ContentCall) (p : Position α) : Option (Position α) :=
  match a with
  | .read len n =>
      if n ≤ len ∧ n ≤ D.length - p.pos then
        some ⟨p.pos + n, p.trace ++ [.read len (bytesAt D p.pos n) (p.pos + n : Nat)]⟩
      else none
  | .seek offset code =>
      if code ≠ 0 then some ⟨p.pos, p.trace ++ [.seek offset code p.pos]⟩
      else if 0 ≤ offset then some ⟨offset.toNat, p.trace ++ [.seek offset 0 offset]⟩
      else none

/-- The content `D`, read and sought from its beginning on. -/
def content (D : List α) : Lts (Position α) ContentCall where
  init p := p = ⟨0, []⟩
  step := contentStep D

/-- A read gives all that it is asked for or all that remains, and a seek is
refused for a negative offset only. -/
def Exact (D : List α) (p : Position α) : ContentCall → Prop
  | .read len n => n = min len (D.length - p.pos)
  | .seek offset code => code = 0 ↔ 0 ≤ offset

/-- A read that gives all there is gives what `take` gives. -/
theorem bytesAt_min (D : List α) (pos len : Nat) :
    bytesAt D pos (min len (D.length - pos)) = (D.drop pos).take len := by
  rw [bytesAt, ← List.length_drop, List.take_eq_take_iff, Nat.min_assoc, Nat.min_self]

section Calls

variable {D : List α} {p : Position α}

theorem content_read {len n : Nat} (hlen : n ≤ len) (hn : n ≤ D.length - p.pos) :
    (content D).step (.read len n) p
      = some ⟨p.pos + n, p.trace ++ [.read len (bytesAt D p.pos n) (p.pos + n : Nat)]⟩ :=
  if_pos ⟨hlen, hn⟩

theorem content_seek {offset : Int} (hoff : 0 ≤ offset) :
    (content D).step (.seek offset 0) p
      = some ⟨offset.toNat, p.trace ++ [.seek offset 0 offset]⟩ := by
  simp [content, contentStep, hoff]

theorem content_refused {offset code : Int} (hcode : code ≠ 0) :
    (content D).step (.seek offset code) p
      = some ⟨p.pos, p.trace ++ [.seek offset code p.pos]⟩ :=
  if_pos hcode

end Calls

end Streamlike
