import Streamlike.BufferOver
import Streamlike.File

/-!
# Buffered reading of a file

The buffered stream over the file stream of `file.c`. The filler only reads
and seeks, so the file stays as it is and its stream gives the content
(`fileInner_gives`). As in `fileStream`, there are no input or output
errors, and a seek to a position that does not fit a `long`, or that the
file system does not accept, is refused.
-/

namespace Streamlike

/-- An offset that `fseek` goes to. -/
def SeekAccepted (w limit : Nat) (offset : Int) : Prop :=
  0 ≤ offset ∧ offset ≤ seekLimit w limit

theorem SeekAccepted.fits {w limit : Nat} {offset : Int} (h : SeekAccepted w limit offset) :
    -2 ^ (w - 1) ≤ offset ∧ offset < 2 ^ (w - 1) := by
  have hmost : seekLimit w limit ≤ 2 ^ (w - 1) - 1 := Nat.min_le_right _ _
  have hpos : 0 < 2 ^ (w - 1) := Nat.two_pow_pos _
  have hcast : ((2 ^ (w - 1) : Nat) : Int) = 2 ^ (w - 1) := by simp
  obtain ⟨hlow, hhigh⟩ := h
  constructor <;> omega

end Streamlike
