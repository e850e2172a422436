/-!
# Systems with a partial step function

A system has initial states and a step that takes an action; `none` says
that the action is not possible in the state, so a thread that is blocked
has no possible action. A run is a list of actions.

`Reach ok` are the states reached by steps that all meet `ok`, a
condition on the state and the action before the step; `Any` is no
condition. The two rules are the invariant rule (`Reach.invariant`) and
forward simulation (`Reach.simulate`), in which one step of the first
system is matched by any number of steps of the second.
-/

/-- States `σ`, actions `ι`. -/
structure Lts (σ ι : Type) where
  init : σ → Prop
  step : ι → σ → Option σ

namespace Lts

variable {σ ι τ κ ω : Type}

/-- No condition on the steps. -/
def Any (_ : σ) (_ : ι) : Prop := True

/-- States reached from an initial one by steps that meet `ok`. -/
inductive Reach (M : Lts σ ι) (ok : σ → ι → Prop) : σ → Prop
  | init {s : σ} : M.init s → Reach M ok s
  | step {s s' : σ} {a : ι} : Reach M ok s → ok s a → M.step a s = some s' → Reach M ok s'

/-- States reached from `s` by steps that meet `ok`. -/
inductive Steps (M : Lts σ ι) (ok : σ → ι → Prop) (s : σ) : σ → Prop
  | refl : Steps M ok s s
  | tail {t t' : σ} {a : ι} : Steps M ok s t → ok t a → M.step a t = some t' → Steps M ok s t'

/-- Run a list of actions. -/
def run (M : Lts σ ι) : List ι → σ → Option σ
  | [], s => some s
  | a :: as, s => (M.step a s).bind (M.run as)

/-- The system with a history variable beside it: `watch` computes it from
the actions and the states, and no step depends on it. -/
def watched (M : Lts σ ι) (w₀ : ω) (watch : ι → σ → ω → ω) : Lts (σ × ω) ι where
  init x := M.init x.1 ∧ x.2 = w₀
  step a x := (M.step a x.1).map fun s => (s, watch a x.1 x.2)

variable {M : Lts σ ι} {N : Lts τ κ} {ok ok' : σ → ι → Prop} {okN : τ → κ → Prop}

theorem Reach.mono (h : ∀ s a, ok s a → ok' s a) {s : σ} (hs : M.Reach ok s) :
    M.Reach ok' s := by
  induction hs with
  | init hi => exact .init hi
  | step _ ha hst ih => exact .step ih (h _ _ ha) hst

/-- The invariant rule: a property of the initial states that every step
from a reached state keeps. -/
theorem Reach.invariant {I : σ → Prop} (hinit : ∀ s, M.init s → I s)
    (hstep : ∀ s a s', M.Reach ok s → I s → ok s a → M.step a s = some s' → I s')
    {s : σ} (hs : M.Reach ok s) : I s := by
  induction hs with
  | init hi => exact hinit _ hi
  | step hr ha hst ih => exact hstep _ _ _ hr ih ha hst

theorem Reach.steps {s t : σ} (hs : M.Reach ok s) (h : M.Steps ok s t) : M.Reach ok t := by
  induction h with
  | refl => exact hs
  | tail _ ha hst ih => exact .step ih ha hst

theorem Steps.single {s t : σ} {a : ι} (ha : ok s a) (h : M.step a s = some t) :
    M.Steps ok s t :=
  .tail .refl ha h

theorem Steps.trans {s t u : σ} (h : M.Steps ok s t) (h' : M.Steps ok t u) : M.Steps ok s u := by
  induction h' with
  | refl => exact h
  | tail _ ha hst ih => exact .tail ih ha hst

/-- A run whose actions meet the condition wherever `P` holds, and keep
`P`, reaches its last state. -/
theorem Reach.runOn {P : σ → Prop} {as : List ι} (hok : ∀ a ∈ as, ∀ s, P s → ok s a)
    (hP : ∀ a ∈ as, ∀ s s', P s → M.step a s = some s' → P s') : ∀ {s t : σ}, M.Reach ok s → P s →
    M.run as s = some t → M.Reach ok t := by
  induction as with
  | nil => intro s t hs _ h; exact Option.some.inj h ▸ hs
  | cons a as ih =>
      intro s t hs hp h
      obtain ⟨u, hu, hrest⟩ := Option.bind_eq_some_iff.mp h
      exact ih (fun b hb => hok b (List.mem_cons_of_mem _ hb))
        (fun b hb => hP b (List.mem_cons_of_mem _ hb))
        (.step hs (hok a List.mem_cons_self s hp) hu) (hP a List.mem_cons_self s u hp hu) hrest

/-- A run whose actions meet the condition in every state. -/
theorem Reach.run {as : List ι} (hok : ∀ a ∈ as, ∀ s, ok s a) {s t : σ} (hs : M.Reach ok s)
    (h : M.run as s = some t) : M.Reach ok t :=
  hs.runOn (P := fun _ => True) (fun a ha s _ => hok a ha s) (fun _ _ _ _ _ _ => trivial) trivial h

section Watched

variable {C : σ → ι → Prop} {w₀ : ω} {watch : ι → σ → ω → ω}

/-- A run with its history is a run. -/
theorem Reach.forget {x : σ × ω} (h : (M.watched w₀ watch).Reach (fun x a => C x.1 a) x) :
    M.Reach C x.1 := by
  induction h with
  | init hi => exact .init hi.1
  | step _ ha hst ih =>
      obtain ⟨t, ht, rfl⟩ := Option.map_eq_some_iff.mp hst
      exact .step ih ha ht

/-- Every run has its history. -/
theorem Reach.watched {s : σ} (h : M.Reach C s) :
    ∃ w, (M.watched w₀ watch).Reach (fun x a => C x.1 a) (s, w) := by
  induction h with
  | init hi => exact ⟨w₀, .init ⟨hi, rfl⟩⟩
  | step _ ha hst ih =>
      obtain ⟨w, hw⟩ := ih
      exact ⟨_, .step hw ha (Option.map_eq_some_iff.mpr ⟨_, hst, rfl⟩)⟩

end Watched

/-- Forward simulation: every step of `M` is matched by steps of `N`. -/
theorem Reach.simulate {R : σ → τ → Prop}
    (hinit : ∀ s, M.init s → ∃ t, N.init t ∧ R s t)
    (hstep : ∀ s a s' t, M.Reach ok s → R s t → ok s a → M.step a s = some s' →
      ∃ t', N.Steps okN t t' ∧ R s' t')
    {s : σ} (hs : M.Reach ok s) : ∃ t, N.Reach okN t ∧ R s t := by
  induction hs with
  | init hi =>
      obtain ⟨t, ht, hR⟩ := hinit _ hi
      exact ⟨t, .init ht, hR⟩
  | step hr ha hst ih =>
      obtain ⟨t, ht, hR⟩ := ih
      obtain ⟨t', hsteps, hR'⟩ := hstep _ _ _ _ hr hR ha hst
      exact ⟨t', ht.steps hsteps, hR'⟩

end Lts
