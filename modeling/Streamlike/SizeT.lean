import Mathlib.Algebra.Group.Nat.Defs

/-!
# Unsigned machine arithmetic with a trace

A computation on unsigned words of `width` bits returns its value and the
list of its effects: every addition or subtraction that wrapped modulo
`2 ^ width`, and every access it made, of any type `ε`.

`Returns ok m x` says that `m` returns `x` without a wrap and with
accesses that are all `ok`. It has one rule for each operation, with the
operation's side condition, and one for sequencing, so that a computation
is shown to be exact by walking through it once.
-/

namespace SizeT

variable {ε β γ : Type}

/-- What an operation does beside its value. -/
inductive Effect (ε : Type) where
  | wrap
  | access (a : ε)
deriving DecidableEq

/-- A value and the effects of computing it, in order. -/
structure Traced (ε β : Type) where
  val : β
  trace : List (Effect ε)

instance : Monad (Traced ε) where
  pure x := ⟨x, []⟩
  bind m f := ⟨(f m.val).val, m.trace ++ (f m.val).trace⟩

/-- The effects of a sequence are those of its parts. -/
theorem mem_bind {m : Traced ε β} {f : β → Traced ε γ} {e : Effect ε} :
    e ∈ (m >>= f).trace ↔ e ∈ m.trace ∨ e ∈ (f m.val).trace :=
  List.mem_append

/-- Addition modulo `2 ^ width`. -/
def add (width a b : Nat) : Traced ε Nat :=
  ⟨(a + b) % 2 ^ width, if a + b < 2 ^ width then [] else [.wrap]⟩

/-- Subtraction modulo `2 ^ width`. -/
def sub (width a b : Nat) : Traced ε Nat :=
  ⟨(a + 2 ^ width - b) % 2 ^ width, if b ≤ a then [] else [.wrap]⟩

def access (a : ε) : Traced ε Unit := ⟨(), [.access a]⟩

/-- No wrap, and no access but those that are `ok`. -/
def Traced.Safe (ok : ε → Prop) (m : Traced ε β) : Prop :=
  .wrap ∉ m.trace ∧ ∀ a, .access a ∈ m.trace → ok a

/-- The exact value, safely. -/
structure Returns (ok : ε → Prop) (m : Traced ε β) (x : β) : Prop where
  val : m.val = x
  safe : m.Safe ok

/-! ## The rules -/

section Rules

variable {ok : ε → Prop} {width a b : Nat}

theorem Returns.pure (x : β) : Returns ok (pure x : Traced ε β) x :=
  ⟨rfl, List.not_mem_nil, fun _ h => absurd h List.not_mem_nil⟩

/-- One computation, then the next from its exact value. -/
theorem Returns.bind {m : Traced ε β} {f : β → Traced ε γ} {x : β} {y : γ}
    (hm : Returns ok m x) (hf : Returns ok (f x) y) : Returns ok (m >>= f) y := by
  obtain ⟨rfl, hwrap, haccess⟩ := hm
  refine ⟨hf.val, fun h => ?_, fun a h => ?_⟩
  · exact (List.mem_append.mp h).elim hwrap hf.safe.1
  · exact (List.mem_append.mp h).elim (haccess a) (hf.safe.2 a)

theorem Returns.add (h : a + b < 2 ^ width) : Returns ok (add width a b) (a + b) where
  val := Nat.mod_eq_of_lt h
  safe := by simp [SizeT.add, Traced.Safe, h]

theorem Returns.sub (h : b ≤ a) (ha : a < 2 ^ width) :
    Returns ok (sub width a b) (a - b) where
  val := by
    simp only [SizeT.sub]
    rw [show a + 2 ^ width - b = a - b + 2 ^ width by omega, Nat.add_mod_right,
      Nat.mod_eq_of_lt (by omega)]
  safe := by simp [SizeT.sub, Traced.Safe, h]

theorem Returns.access {x : ε} (h : ok x) : Returns ok (access x) () where
  val := rfl
  safe := by simp [SizeT.access, Traced.Safe, h]

end Rules

end SizeT
