import Mathlib.Algebra.BigOperators.Group.List.Basic
import Mathlib.Algebra.Order.Group.Multiset

/-!
# Programs that acquire and release

A heap says what is live: things of a kind at an address. A request may be
refused, and a program is verified for every way to grant or refuse its
requests. To release what is not live is misuse, and the heap remembers it.

`Ensures m owned bad Q` is the weakest precondition of `m`: from every heap
in which just `owned` is live, `m` ends in one whose live things meet `Q`.
There is one rule for each operation; a release takes its thing out of the
live ones (`Ensures.release`) or, when it is not among them, is misuse
(`Ensures.release_idle`).
-/

namespace Streamlike

/-- A thing of a kind at an address. -/
abbrev Thing (κ : Type) := κ × Nat

/-- `count` is the number of requests so far, and the next address. -/
structure Heap (κ : Type) where
  count : Nat
  live : Multiset (Thing κ)
  misused : Bool
deriving DecidableEq

abbrev Own (κ : Type) := StateM (Heap κ)

/-- Whether the `n`-th request is granted, if it is for a thing of kind `k`. -/
abbrev Grants (κ : Type) := κ → Nat → Bool

variable {κ α β : Type}

/-! ## The operations -/

/-- A thing at a new address. -/
def acquire (grants : Grants κ) (k : κ) : Own κ (Option Nat) := fun heap =>
  if grants k heap.count then
    (some heap.count,
      { heap with count := heap.count + 1, live := {(k, heap.count)} + heap.live })
  else (none, { heap with count := heap.count + 1 })

/-- A thing at a given address. -/
def setUp (grants : Grants κ) (thing : Thing κ) : Own κ Bool := fun heap =>
  if grants thing.1 heap.count then
    (true, { heap with count := heap.count + 1, live := {thing} + heap.live })
  else (false, { heap with count := heap.count + 1 })

/-- Something undefined. -/
def misuse : Own κ Unit := fun heap => ((), { heap with misused := true })

def release [DecidableEq κ] (thing : Thing κ) : Own κ Unit := fun heap =>
  if thing ∈ heap.live then ((), { heap with live := heap.live.erase thing }) else misuse heap

/-- The release of what may not be there. -/
def releaseSome [DecidableEq κ] (k : κ) : Option Nat → Own κ Unit
  | none => pure ()
  | some i => release (k, i)

/-- What may be there. -/
def thingOf (k : κ) : Option Nat → Multiset (Thing κ)
  | none => 0
  | some i => {(k, i)}

/-! ## Preconditions -/

/-- Just `owned` is live, at addresses that have been given out. -/
structure Heap.Holds (heap : Heap κ) (owned : Multiset (Thing κ)) (bad : Bool) : Prop where
  live : heap.live = owned
  misused : heap.misused = bad
  given : ∀ thing ∈ owned, thing.2 < heap.count

/-- The weakest precondition. -/
def Ensures (m : Own κ α) (owned : Multiset (Thing κ)) (bad : Bool)
    (Q : α → Multiset (Thing κ) → Bool → Prop) : Prop :=
  ∀ heap, heap.Holds owned bad →
    ∃ owned' bad', Q (m heap).1 owned' bad' ∧ (m heap).2.Holds owned' bad'

namespace Ensures

variable {m : Own κ α} {owned rest : Multiset (Thing κ)} {bad : Bool} {grants : Grants κ}
variable {P Q : α → Multiset (Thing κ) → Bool → Prop}

theorem pure {a : α} (h : Q a owned bad) : Ensures (Pure.pure a) owned bad Q :=
  fun _ hholds => ⟨owned, bad, h, hholds⟩

theorem mono (h : Ensures m owned bad P) (hQ : ∀ a owned bad, P a owned bad → Q a owned bad) :
    Ensures m owned bad Q := by
  intro heap hholds
  obtain ⟨owned', bad', hp, hholds'⟩ := h heap hholds
  exact ⟨owned', bad', hQ _ _ _ hp, hholds'⟩

/-- The live things in another order. -/
theorem of_eq (owned' : Multiset (Thing κ)) (heq : owned = owned')
    (h : Ensures m owned' bad Q) : Ensures m owned bad Q :=
  heq ▸ h

theorem bind {f : α → Own κ β} {R : β → Multiset (Thing κ) → Bool → Prop}
    (h : Ensures m owned bad fun a owned bad => Ensures (f a) owned bad R) :
    Ensures (m >>= f) owned bad R := by
  intro heap hholds
  obtain ⟨owned₁, bad₁, hf, hholds₁⟩ := h heap hholds
  exact hf _ hholds₁

/-- The specification of a part, used where the part is called. -/
theorem call {f : α → Own κ β} {R : β → Multiset (Thing κ) → Bool → Prop}
    (h : Ensures m owned bad P) (hf : ∀ a owned bad, P a owned bad → Ensures (f a) owned bad R) :
    Ensures (m >>= f) owned bad R :=
  (h.mono hf).bind

/-- A refused request leaves everything; a granted one has an address at
which nothing is live. -/
theorem acquire {k : κ} {Q : Option Nat → Multiset (Thing κ) → Bool → Prop}
    (hnone : ∀ n, grants k n = false → Q none owned bad)
    (hsome : ∀ i, (∀ k', (k', i) ∉ owned) → Q (some i) ({(k, i)} + owned) bad) :
    Ensures (Streamlike.acquire grants k) owned bad Q := by
  intro heap hholds
  unfold Streamlike.acquire
  split
  · refine ⟨_, bad, hsome heap.count fun k' hmem => ?_, ⟨?_, hholds.misused, ?_⟩⟩
    · exact Nat.lt_irrefl _ (hholds.given _ hmem)
    · show {(k, heap.count)} + heap.live = _
      rw [hholds.live]
    · intro thing hmem
      rcases Multiset.mem_add.mp hmem with hnew | hold
      · rw [Multiset.mem_singleton.mp hnew]
        exact Nat.lt_succ_self _
      · exact Nat.lt_succ_of_lt (hholds.given _ hold)
  · next hno =>
    exact ⟨owned, bad, hnone _ (Bool.eq_false_iff.mpr hno), hholds.live, hholds.misused,
      fun thing hmem => Nat.lt_succ_of_lt (hholds.given _ hmem)⟩

/-- At an address at which something is live. -/
theorem setUp {thing : Thing κ} {k : κ} {Q : Bool → Multiset (Thing κ) → Bool → Prop}
    (hat : (k, thing.2) ∈ owned) (hno : ∀ n, grants thing.1 n = false → Q false owned bad)
    (hyes : Q true ({thing} + owned) bad) :
    Ensures (Streamlike.setUp grants thing) owned bad Q := by
  intro heap hholds
  unfold Streamlike.setUp
  split
  · refine ⟨_, bad, hyes, ⟨?_, hholds.misused, ?_⟩⟩
    · show {thing} + heap.live = _
      rw [hholds.live]
    · intro thing' hmem
      rcases Multiset.mem_add.mp hmem with hnew | hold
      · rw [Multiset.mem_singleton.mp hnew]
        exact Nat.lt_succ_of_lt (hholds.given (k, thing.2) hat)
      · exact Nat.lt_succ_of_lt (hholds.given _ hold)
  · next hrefused =>
    exact ⟨owned, bad, hno _ (Bool.eq_false_iff.mpr hrefused), hholds.live, hholds.misused,
      fun thing hmem => Nat.lt_succ_of_lt (hholds.given _ hmem)⟩

theorem misuse {Q : Unit → Multiset (Thing κ) → Bool → Prop} (h : Q () owned true) :
    Ensures Streamlike.misuse owned bad Q :=
  fun _ hholds => ⟨owned, true, h, hholds.live, rfl, hholds.given⟩

variable [DecidableEq κ] {Q : Unit → Multiset (Thing κ) → Bool → Prop}

theorem release {thing : Thing κ} (hlive : owned = {thing} + rest) (h : Q () rest bad) :
    Ensures (Streamlike.release thing) owned bad Q := by
  intro heap hholds
  have hmem : thing ∈ heap.live := by
    rw [hholds.live, hlive]
    exact Multiset.mem_add.mpr (.inl (Multiset.mem_singleton_self _))
  rw [Streamlike.release, if_pos hmem]
  refine ⟨rest, bad, h, ?_, hholds.misused, fun thing' hrest => hholds.given _ ?_⟩
  · show heap.live.erase thing = rest
    rw [hholds.live, hlive, Multiset.singleton_add, Multiset.erase_cons_head]
  · rw [hlive]
    exact Multiset.mem_add.mpr (.inr hrest)

theorem release_idle {thing : Thing κ} (hidle : thing ∉ owned) (h : Q () owned true) :
    Ensures (Streamlike.release thing) owned bad Q := by
  intro heap hholds
  rw [Streamlike.release, if_neg (by rw [hholds.live]; exact hidle)]
  exact misuse h heap hholds

theorem releaseSome {k : κ} {o : Option Nat} (hlive : owned = thingOf k o + rest)
    (h : Q () rest bad) : Ensures (Streamlike.releaseSome k o) owned bad Q := by
  cases o with
  | none =>
      obtain rfl : owned = rest := hlive.trans (zero_add rest)
      exact .pure h
  | some i => exact .release hlive h

end Ensures

/-! ## Tables of owners -/

section Table

variable {γ μ : Type} [AddCommMonoid μ] (held : γ → μ) {owners : List γ} {i : Nat} {x : γ}

theorem sum_eraseIdx (h : owners[i]? = some x) :
    (owners.map held).sum = held x + ((owners.eraseIdx i).map held).sum := by
  obtain ⟨hi, rfl⟩ := List.getElem?_eq_some_iff.mp h
  rw [← List.sum_cons, ← List.map_cons]
  exact ((List.getElem_cons_eraseIdx_perm hi).map held).sum_eq.symm

theorem sum_set (h : owners[i]? = some x) (y : γ) :
    ((owners.set i y).map held).sum = held y + ((owners.eraseIdx i).map held).sum := by
  obtain ⟨hi, -⟩ := List.getElem?_eq_some_iff.mp h
  rw [← List.sum_cons, ← List.map_cons]
  exact ((List.set_perm_cons_eraseIdx hi y).map held).sum_eq

end Table

end Streamlike
