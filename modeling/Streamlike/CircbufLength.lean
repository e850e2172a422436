import Streamlike.CircbufSpsc

/-!
# The length of a buffer in use

`circbuf_get_length` loads `roff`, then `woff`. The caller is the consumer,
the producer or any other thread, so there may be any steps of the two
between the loads. It returns what had been produced at the second load less
what had been released at the first, modulo the size of the ring: exact for
the consumer, to whom the buffer only grows, and for the producer, to whom
it only shrinks (`length_observed`).
-/

namespace Streamlike

variable {α : Type} {c : Nat}

/-- How many bytes had been released and produced. -/
structure Mark where
  released : Nat
  produced : Nat
deriving DecidableEq

def Shared.mark (s : Shared α) : Mark := ⟨s.released.length, s.produced.length⟩

/-- A thread that calls `circbuf_get_length`, with the marks at its loads. -/
inductive LenPc where
  | idle
  | len2 (roff : Nat) (m₁ : Mark)
  | ret (n : Nat) (m₁ m₂ : Mark)
deriving DecidableEq

inductive LenAct (α : Type) where
  | sys (a : Act α)
  | len

/-- The two loads of `circbuf_get_length`. -/
def lgo (s : Shared α) : LenPc → LenPc
  | .idle | .ret .. => .len2 s.cb.roff s.mark
  | .len2 roff m₁ =>
      let woff := s.cb.woff
      .ret (if woff ≥ roff then woff - roff else s.cb.size - roff + woff) m₁ s.mark

/-- The two threads, and calls of `circbuf_get_length` at any moments. -/
def observed (α : Type) (c : Nat) : Lts (Sys α × LenPc) (LenAct α) where
  init x := (spsc α c).init x.1 ∧ x.2 = .idle
  step a x :=
    match a with
    | .sys a => (sysStep a x.1).map fun y => (y, x.2)
    | .len => some (x.1, lgo x.1.sh x.2)

/-! ## The offsets count -/

section Counts

variable {s s' : Shared α} {p p' : PPc α} {q q' : CPc α}

/-- The consumer changes `roff` in the step that releases. -/
theorem cgo_releases (h : cgo s q = some (s', q')) :
    (s'.cb.roff = s.cb.roff ∧ s'.released = s.released)
      ∨ ∃ d, q = .storeR d s'.cb.roff ∧ s'.released = s.released ++ d.bytes s := by
  cases q with
  | idle => cases h
  | lockW k | lockR d roff | parked k | closeLock =>
      obtain ⟨_, h⟩ := Option.ite_none_right_eq_some.mp h
      obtain ⟨rfl, rfl⟩ := Prod.mk.inj (Option.some.inj h)
      exact .inl ⟨rfl, rfl⟩
  | copy k m todo =>
      cases todo <;>
        (obtain ⟨rfl, rfl⟩ := Prod.mk.inj (Option.some.inj h)
         exact .inl ⟨rfl, rfl⟩)
  | storeR d roff =>
      obtain ⟨rfl, rfl⟩ := Prod.mk.inj (Option.some.inj h)
      exact .inr ⟨d, rfl, rfl⟩
  | _ =>
      obtain ⟨rfl, rfl⟩ := Prod.mk.inj (Option.some.inj h)
      exact .inl ⟨rfl, rfl⟩

theorem cstep_releases {a : CAct α} (h : cstep a s q = some (s', q')) :
    (s'.cb.roff = s.cb.roff ∧ s'.released = s.released)
      ∨ ∃ d, q = .storeR d s'.cb.roff ∧ s'.released = s.released ++ d.bytes s := by
  cases cstep_cases h with
  | go h => exact cgo_releases h
  | call r => exact .inl ⟨rfl, rfl⟩
  | spurious hparked => exact .inl ⟨rfl, rfl⟩

/-- `roff` counts what has been released. -/
def Counts (s : Shared α) : Prop := s.cb.roff % s.cb.size = s.released.length % s.cb.size

theorem Counts.release {d : Done α} (hcounts : Counts s) (hd : DoneOk s d s'.cb.roff)
    (hsize : s'.cb.size = s.cb.size) (hreleased : s'.released = s.released ++ d.bytes s) :
    Counts s' := by
  unfold Counts
  rw [hsize, hd.roff_mod, hreleased, List.length_append, hd.bytes, ByteRing.length_window,
    Nat.add_mod, hcounts, ← Nat.add_mod]

theorem Counts.step {a : Act α} {x x' : Sys α} (hx : Inv c x) (hcounts : Counts x.sh)
    (h : sysStep a x = some x') : Counts x'.sh := by
  rcases sysStep_cases h with ⟨b, rfl, hb, -⟩ | ⟨b, rfl, hb, -⟩
  · have hframe := (pstep_ok hx.ring hx.prod hb).frame
    unfold Counts
    rw [hframe.size, hframe.roff, hframe.released]
    exact hcounts
  · have hframe := (cstep_ok hx.ring hx.cons hb).frame
    rcases cstep_releases hb with ⟨hroff, hreleased⟩ | ⟨d, hq, hreleased⟩
    · unfold Counts
      rw [hframe.size, hroff, hreleased]
      exact hcounts
    · have hat := hx.cons.at_
      rw [hq] at hat
      exact hcounts.release hat hframe.size hreleased

theorem counts_of_reach {ok : Sys α → Act α → Prop} {x : Sys α} (h : (spsc α c).Reach ok x) :
    Counts x.sh := by
  refine h.invariant (I := fun x => Counts x.sh) ?_ ?_
  · rintro _ ⟨env, cb, hinit, -, rfl⟩
    obtain ⟨-, data, -, rfl⟩ := circbufInit_eq hinit
    rfl
  · exact fun _ _ _ hr hi _ hs => hi.step (inv_of_reach hr) hs

end Counts

/-! ## Marks -/

/-- Later, both are more. -/
def Mark.Before (m m' : Mark) : Prop := m.released ≤ m'.released ∧ m.produced ≤ m'.produced

/-- A ring of capacity `c` is between the two. -/
def Mark.Fits (c : Nat) (m : Mark) : Prop :=
  m.released ≤ m.produced ∧ m.produced ≤ m.released + c

section Marks

variable {x x' : Sys α} {m m₁ m₂ : Mark}

theorem Mark.Before.trans (h : m.Before m₁) (h' : m₁.Before m₂) : m.Before m₂ :=
  ⟨h.1.trans h'.1, h.2.trans h'.2⟩

theorem mark_length (hr : RingOk c x.sh) :
    x.sh.mark.produced = x.sh.mark.released + circbufGetLength x.sh.cb := by
  show x.sh.produced.length = x.sh.released.length + _
  rw [hr.history, List.length_append, length_unread]

theorem mark_fits (hr : RingOk c x.sh) : x.sh.mark.Fits c := by
  have hlength := mark_length hr
  have hlt := ByteRing.used_lt hr.wf.woff_lt hr.wf.roff_le
  rw [← circbufGetLength_eq, hr.size] at hlt
  constructor <;> omega

theorem mark_step {a : Act α} (hx : Inv c x) (h : sysStep a x = some x') :
    x.sh.mark.Before x'.sh.mark := by
  have hlength := mark_length hx.ring
  have hlength' := mark_length (hx.step h).ring
  rcases sysStep_cases h with ⟨b, rfl, hb, -⟩ | ⟨b, rfl, hb, -⟩
  · have hframe := (pstep_ok hx.ring hx.prod hb).frame
    have hreleased : x'.sh.mark.released = x.sh.mark.released :=
      congrArg List.length hframe.released
    have hle := hframe.length_le
    constructor <;> omega
  · have hframe := (cstep_ok hx.ring hx.cons hb).frame
    have hproduced : x'.sh.mark.produced = x.sh.mark.produced :=
      congrArg List.length hframe.produced
    have hle := hframe.length_le
    constructor <;> omega

/-- What the second load finds. -/
theorem length_counts (hr : RingOk c x.sh) (hcounts : Counts x.sh) {roff : Nat}
    (hroff : roff ≤ c + 1) (hmod : roff % (c + 1) = m.released % (c + 1))
    (hle : m.Before x.sh.mark) (hm : m.Fits c) :
    ByteRing.used x.sh.cb.size roff x.sh.cb.woff
      = (x.sh.mark.produced - m.released) % (c + 1) := by
  have hlength := mark_length hr
  have hw := hr.wf.woff_lt
  -- `woff` counts what has been produced
  have hwoff : x.sh.cb.woff = x.sh.mark.produced % x.sh.cb.size := by
    have hcell := ByteRing.cell_used hw hr.wf.roff_le
    rw [Nat.add_mod, hcounts, ← Nat.add_mod] at hcell
    rw [hlength]
    exact hcell.symm
  rw [hr.size] at hw hwoff ⊢
  exact ByteRing.used_eq_mod hw hroff hmod hwoff (hm.1.trans hle.2)

end Marks

/-! ## The calls -/

/-- What a call of `circbuf_get_length` knows. -/
def LenAt (c : Nat) (now : Mark) : LenPc → Prop
  | .idle => True
  | .len2 roff m₁ =>
      roff ≤ c + 1 ∧ roff % (c + 1) = m₁.released % (c + 1) ∧ m₁.Fits c ∧ m₁.Before now
  | .ret n m₁ m₂ =>
      n = (m₂.produced - m₁.released) % (c + 1) ∧ m₁.Fits c ∧ m₂.Fits c ∧ m₁.Before m₂
        ∧ m₂.Before now

section Calls

variable {x : Sys α} {pc : LenPc}

theorem LenAt.later {now now' : Mark} (h : LenAt c now pc) (hle : now.Before now') :
    LenAt c now' pc := by
  cases pc with
  | idle => trivial
  | len2 roff m₁ =>
      obtain ⟨hroff, hmod, hm, hbefore⟩ := h
      exact ⟨hroff, hmod, hm, hbefore.trans hle⟩
  | ret n m₁ m₂ =>
      obtain ⟨hn, hm₁, hm₂, hbetween, hbefore⟩ := h
      exact ⟨hn, hm₁, hm₂, hbetween, hbefore.trans hle⟩

theorem LenAt.load (hr : RingOk c x.sh) (hcounts : Counts x.sh) (h : LenAt c x.sh.mark pc) :
    LenAt c x.sh.mark (lgo x.sh pc) := by
  have hfits := mark_fits hr
  have hnow : x.sh.mark.Before x.sh.mark := ⟨Nat.le_refl _, Nat.le_refl _⟩
  cases pc with
  | idle | ret n m₁ m₂ =>
      unfold Counts at hcounts
      rw [hr.size] at hcounts
      exact ⟨hr.size ▸ hr.wf.roff_le, hcounts, hfits, hnow⟩
  | len2 roff m₁ =>
      obtain ⟨hroff, hmod, hm, hbefore⟩ := h
      exact ⟨length_counts hr hcounts hroff hmod hbefore hm, hm, hfits, hbefore, hnow⟩

theorem lenAt_of_reach {x : Sys α × LenPc} (h : (observed α c).Reach Lts.Any x) :
    (spsc α c).Reach Lts.Any x.1 ∧ LenAt c x.1.sh.mark x.2 := by
  refine h.invariant
    (I := fun x => (spsc α c).Reach Lts.Any x.1 ∧ LenAt c x.1.sh.mark x.2) ?_ ?_
  · rintro ⟨x, pc⟩ ⟨hinit, rfl⟩
    exact ⟨.init hinit, trivial⟩
  · rintro ⟨x, pc⟩ a x' - ⟨hreach, hat⟩ - hs
    cases a with
    | sys a =>
        obtain ⟨y, hy, rfl⟩ := Option.map_eq_some_iff.mp hs
        exact ⟨.step hreach trivial hy, hat.later (mark_step (inv_of_reach hreach) hy)⟩
    | len =>
        obtain rfl := Option.some.inj hs
        exact ⟨hreach, hat.load (inv_of_reach hreach).ring (counts_of_reach hreach)⟩

/-- **What `circbuf_get_length` says of a buffer in use.** In every
interleaving of a producer and a consumer with the two loads: the result is
what had been produced at the second load less what had been released at
the first, modulo the size. If nothing is released between the loads, as
when the consumer calls, it is the length at the second load, and at most
the length until something is released. If nothing is produced between
them, as when the producer calls, it is the length at the first load, and
at least the length until something is produced. -/
theorem length_observed (c : Nat) {x : Sys α} {n : Nat} {m₁ m₂ : Mark}
    (h : (observed α c).Reach Lts.Any (x, .ret n m₁ m₂)) :
    n = (m₂.produced - m₁.released) % (c + 1)
      ∧ (m₁.released = m₂.released → n = m₂.produced - m₂.released
        ∧ (x.sh.released.length = m₂.released → n ≤ circbufGetLength x.sh.cb))
      ∧ (m₁.produced = m₂.produced → n = m₁.produced - m₁.released
        ∧ (x.sh.produced.length = m₂.produced → circbufGetLength x.sh.cb ≤ n)) := by
  have hreach : (spsc α c).Reach Lts.Any x := (lenAt_of_reach h).1
  have hlength := mark_length (inv_of_reach hreach).ring
  obtain ⟨hn, hm₁, hm₂, hbetween, hbefore⟩ : LenAt c x.sh.mark (.ret n m₁ m₂) :=
    (lenAt_of_reach h).2
  obtain ⟨hle₁, hfit₁⟩ := hm₁
  obtain ⟨hle₂, hfit₂⟩ := hm₂
  obtain ⟨hreleased, hproduced⟩ := hbefore
  refine ⟨hn, fun hsame => ?_, fun hsame => ?_⟩
  · have hexact : n = m₂.produced - m₂.released := by
      rw [hn, hsame, Nat.mod_eq_of_lt (by omega)]
    refine ⟨hexact, fun hnow => ?_⟩
    have hnow' : x.sh.mark.released = m₂.released := hnow
    omega
  · have hexact : n = m₁.produced - m₁.released := by
      rw [hn, ← hsame, Nat.mod_eq_of_lt (by omega)]
    refine ⟨hexact, fun hnow => ?_⟩
    have hnow' : x.sh.mark.produced = m₂.produced := hnow
    have hearlier := hbetween.1
    omega

end Calls

/-- A third thread loads `roff`; a byte is written, read, and another one is
written; it loads `woff`, and returns 0 of a buffer that holds a byte. -/
theorem length_observed_run :
    ∃ x : Sys Nat, ∃ m₁ m₂, (observed Nat 1).Reach Lts.Any (x, .ret 0 m₁ m₂)
      ∧ m₂.produced - m₁.released = 2 ∧ 0 = (m₂.produced - m₁.released) % 2
      ∧ circbufGetLength x.sh.cb = 1 := by
  let M := observed Nat 1
  let x₀ : Sys Nat := ⟨.fresh ⟨fun _ => 0, 2, 0, 0, false, false⟩, .idle, .idle⟩
  let writes : List (LenAct Nat) := .sys (.prod (.call (.writeSome (fun _ => 7) 1)))
    :: List.replicate 9 (.sys (.prod .go))
  let reads : List (LenAct Nat) := .sys (.cons (.call (.readSome (fun _ => 0) 1)))
    :: List.replicate 9 (.sys (.cons .go))
  let acts := .len :: (writes ++ reads ++ writes ++ [.len])
  have hrun : (M.run acts (x₀, .idle)).map (fun y => (y.2, circbufGetLength y.1.sh.cb))
      = some (.ret 0 ⟨0, 0⟩ ⟨1, 2⟩, 1) := by decide +kernel
  obtain ⟨⟨x, pc⟩, hx, heq⟩ := Option.map_eq_some_iff.mp hrun
  obtain ⟨rfl, hlength⟩ := Prod.mk.inj heq
  have hreach : M.Reach Lts.Any (x, .ret 0 ⟨0, 0⟩ ⟨1, 2⟩) :=
    .run (fun _ _ _ => trivial) (.init ⟨⟨.ample 0, _, rfl, by decide, rfl⟩, rfl⟩) hx
  exact ⟨x, ⟨0, 0⟩, ⟨1, 2⟩, hreach, rfl, (length_observed 1 hreach).1, hlength⟩

end Streamlike
