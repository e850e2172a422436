import Streamlike.BufferLive

/-!
# What the two threads share, to the end

The inner stream and the locks are nobody's while both threads run. The
user seeks the inner stream itself only before the filler has started, and
holds `seek_lock` from its test of `filler_started` until it is done, so
the two never use it together. `sl_buffer_destroy` asserts that no seek is
requested, and comes to release the ring and the locks only when the filler
has ended (`shared_to_the_end`).
-/

namespace Streamlike

variable {α : Type}

/-- Inside a call of the inner stream. -/
def FPc.usesInner : FPc α → Bool
  | .innerSeek _ _ | .write (.writer _ _ _ _ (_ :: _)) => true
  | _ => false

def UPc.usesInner : UPc α → Bool
  | .innerSeek _ _ => true
  | _ => false

/-! ## The end of the filler -/

section Exit

variable {s s' : SlBuffer α} {f f' : FPc α} {u u' : UPc α}

theorem fgo_exited (h : fgo s f = some (s', f')) : s'.exited = s.exited ∨ f' = .exited := by
  cases f with
  | startLock | seekLock | endLock | parked =>
      obtain ⟨_, h⟩ := Option.ite_none_right_eq_some.mp h
      obtain ⟨rfl, rfl⟩ := Prod.mk.inj (Option.some.inj h)
      exact .inl rfl
  | loopQ =>
      rcases fgo_loopQ h with ⟨-, rfl, rfl⟩ | ⟨-, rfl, rfl⟩
      · exact .inl rfl
      · exact .inr rfl
  | write p =>
      obtain ⟨k, written, -, rfl, rfl⟩ | ⟨-, cbuf, p', -, rfl, rfl⟩ := fgo_write h <;>
        exact .inl rfl
  | closeWrite p =>
      obtain ⟨code, -, rfl, rfl⟩ | ⟨-, cbuf, p', -, rfl, rfl⟩ := fgo_closeWrite h <;>
        exact .inl rfl
  | innerSeek off whence | exited => cases h
  | _ =>
      obtain ⟨rfl, rfl⟩ := Prod.mk.inj (Option.some.inj h)
      exact .inl rfl

theorem fstep_exited {a : FAct α} (h : fstep a s f = some (s', f')) :
    s'.exited = s.exited ∨ f' = .exited := by
  cases fstep_cases h with
  | go h => exact fgo_exited h
  | _ => exact .inl rfl

/-- After its end the filler makes no step. -/
theorem fstep_stopped {a : FAct α} (h : fstep a s f = some (s', f')) : f ≠ .exited := by
  rintro rfl
  cases fstep_cases h with
  | go h => cases h

/-- The user joins after the end of the filler, and withdraws no request. -/
theorem ugo_exited (h : ugo s u = some (s', u')) :
    s'.exited = s.exited ∧ (u' = .destroyed → s.exited = true)
      ∧ (s.seekRequested = true → s'.seekRequested = true) := by
  cases u with
  | read tell₀ q =>
      rcases ugo_read h with ⟨k, -, rfl, rfl⟩ | ⟨-, cbuf, q', -, rfl, rfl⟩
      · split <;> exact ⟨rfl, (fun h => by cases h), id⟩
      · exact ⟨rfl, (fun h => by cases h), id⟩
  | closeRead off whence q =>
      rcases ugo_closeRead h with ⟨code, -, rfl, rfl⟩ | ⟨-, cbuf, q', -, rfl, rfl⟩ <;>
        exact ⟨rfl, (fun h => by cases h), id⟩
  | endClose q =>
      rcases ugo_endClose h with ⟨code, -, rfl, rfl⟩ | ⟨-, cbuf, q', -, rfl, rfl⟩ <;>
        exact ⟨rfl, (fun h => by cases h), id⟩
  | seekLock off whence | parked off whence | endLock =>
      obtain ⟨_, h⟩ := Option.ite_none_right_eq_some.mp h
      obtain ⟨rfl, rfl⟩ := Prod.mk.inj (Option.some.inj h)
      exact ⟨rfl, (fun h => by cases h), id⟩
  | join =>
      obtain ⟨hexited, h⟩ := Option.ite_none_right_eq_some.mp h
      obtain ⟨rfl, rfl⟩ := Prod.mk.inj (Option.some.inj h)
      exact ⟨rfl, fun _ => hexited, id⟩
  | idle | innerSeek off whence | destroyed => cases h
  | testStarted off whence | testReq off whence | testResult off whence found =>
      obtain ⟨rfl, rfl⟩ := Prod.mk.inj (Option.some.inj h)
      split <;> exact ⟨rfl, (fun h => by cases h), id⟩
  | setReq off whence =>
      obtain ⟨rfl, rfl⟩ := Prod.mk.inj (Option.some.inj h)
      exact ⟨rfl, (fun h => by cases h), fun _ => rfl⟩
  | _ =>
      obtain ⟨rfl, rfl⟩ := Prod.mk.inj (Option.some.inj h)
      exact ⟨rfl, (fun h => by cases h), id⟩

theorem ustep_exited {a : UAct α} (h : ustep a s u = some (s', u')) :
    s'.exited = s.exited ∧ (u' = .destroyed → s.exited = true)
      ∧ (s.seekRequested = true → s'.seekRequested = true) := by
  cases ustep_cases h with
  | go h => exact ugo_exited h
  | call r => exact ⟨rfl, (fun hu => by cases r <;> cases hu), id⟩
  | _ => exact ⟨rfl, (fun hu => by cases hu), id⟩

end Exit

section Runs

variable {c step : Nat} {x : Stream α}

/-- The user is past its join only when the filler has ended. -/
theorem exited_of_reach (h : (buffered α c step).Reach Lts.Any x) :
    (x.s.exited = true → x.f = .exited) ∧ (x.u = .destroyed → x.s.exited = true) := by
  refine h.invariant (I := fun x => (x.s.exited = true → x.f = .exited)
    ∧ (x.u = .destroyed → x.s.exited = true)) ?_ ?_
  · rintro _ ⟨env, others, s, hs, -, rfl⟩
    obtain ⟨cb, -, -, rfl⟩ := slBufferCreate2_eq hs
    exact ⟨(fun h => by cases h), (fun h => by cases h)⟩
  rintro ⟨s, f, u⟩ a x' - ⟨hexit, hdone⟩ - hs
  cases a with
  | filler a =>
      obtain ⟨⟨s', f'⟩, hstep, rfl⟩ := Option.map_eq_some_iff.mp hs
      have hrunning : s.exited ≠ true := fun h => fstep_stopped hstep (hexit h)
      refine ⟨fun h => ?_, fun h => absurd (hdone h) hrunning⟩
      rcases fstep_exited hstep with heq | hf
      · exact absurd (heq.symm.trans h) hrunning
      · exact hf
  | user a =>
      obtain ⟨⟨s', u'⟩, hstep, rfl⟩ := Option.map_eq_some_iff.mp hs
      obtain ⟨heq, hjoined, -⟩ := ustep_exited hstep
      exact ⟨fun h => hexit (heq.symm.trans h), fun h => heq.trans (hjoined h)⟩

/-- **The two threads share safely, to the end.** In every interleaving they
do not use the inner stream together; from the close of the ring in
`sl_buffer_destroy` on no seek is requested; and when it has joined the
filler and releases the ring and its locks, the filler has ended, each
mutex is free and nobody is on the queue of a condition. -/
theorem shared_to_the_end (c step : Nat) {x : Stream α}
    (h : (buffered α c step).Reach Lts.Any x) :
    (x.f.usesInner = true → x.u.usesInner = false)
      ∧ (x.u.ending = true → x.s.seekRequested = false)
      ∧ (x.u = .destroyed → x.f = .exited
        ∧ x.s.seekLock = none ∧ x.s.fillerCond = .out ∧ x.s.userCond = .out
        ∧ x.s.cbuf.wlock = none ∧ x.s.cbuf.rlock = none
        ∧ x.s.cbuf.wcond = .out ∧ x.s.cbuf.rcond = .out) := by
  have hx := seekInv_of_reach h
  have hc := circInv_of_reach h
  refine ⟨fun hf => Bool.eq_false_iff.mpr fun hu => ?_,
    fun hu => Bool.eq_false_iff.mpr fun hr => ?_, fun hu => ?_⟩
  · have hat := hx.uat
    cases hpc : x.u with
    | innerSeek off whence =>
        -- the filler has not got the lock to start
        rw [hpc] at hat
        have hstarting : x.f.starting = true := by
          refine Bool.of_not_eq_false fun hno => ?_
          exact Bool.false_ne_true (hat.2.symm.trans (hx.started.mpr hno))
        cases hfpc : x.f with
        | startLock | start => rw [hfpc] at hf; cases hf
        | _ => rw [hfpc] at hstarting; cases hstarting
    | _ => rw [hpc] at hu; cases hu
  · have hawaits := hx.req hr
    cases hpc : x.u with
    | endClose q | endSignal | endUnlock | join | destroyed => rw [hpc] at hawaits; cases hawaits
    | _ => rw [hpc] at hu; cases hu
  · obtain ⟨hexit, hdone⟩ := exited_of_reach h
    have hf := hexit (hdone hu)
    have hp := hc.prod
    have hq := hc.cons
    obtain ⟨s, f, u⟩ := x
    dsimp only at hu hf hx hp hq ⊢
    subst hu hf
    refine ⟨rfl, lock_free ?_ ?_, hx.condF.mpr rfl, hx.condU.mpr rfl, lock_free ?_ ?_,
      lock_free ?_ ?_, hq.wcond.mpr rfl, hp.rcond.mpr rfl⟩
    · exact fun h => by cases hx.lockF.mp h
    · exact fun h => by cases hx.lockU.mp h
    · exact fun h => by cases hp.wlock.mp h
    · exact fun h => by cases hq.wlock.mp h
    · exact fun h => by cases hp.rlock.mp h
    · exact fun h => by cases hq.rlock.mp h

end Runs

/-- A stream that is destroyed before its filler starts. -/
theorem shared_to_the_end_run :
    ∃ x : Stream Nat, (buffered Nat 1 1).Reach Lts.Any x ∧ x.u = .destroyed ∧ x.f = .exited
      ∧ x.s.seekLock = none ∧ x.s.cbuf.wlock = none ∧ x.s.cbuf.rlock = none := by
  let x₀ : Stream Nat := ⟨.fresh ⟨fun _ => 0, 2, 0, 0, false, false⟩ 1, .startLock, .idle⟩
  let acts : List (BAct Nat) := .user (.call .destroy) :: (List.replicate 9 (.user .go)
    ++ List.replicate 5 (.filler .go) ++ [.user .go])
  let released (x : Stream Nat) : Bool := match x.u with
    | .destroyed => true
    | _ => false
  have hrun : ((buffered Nat 1 1).run acts x₀).map released = some true := by
    decide +kernel
  obtain ⟨x, hx, hreleased⟩ := Option.map_eq_some_iff.mp hrun
  have hreach : (buffered Nat 1 1).Reach Lts.Any x :=
    .run (fun _ _ _ => trivial) (.init ⟨.ample 0, true, _, rfl, by decide, rfl⟩) hx
  have hu : x.u = .destroyed := by
    simp only [released] at hreleased
    split at hreleased
    · assumption
    · cases hreleased
  obtain ⟨hf, hseek, -, -, hw, hr, -⟩ := (shared_to_the_end 1 1 hreach).2.2 hu
  exact ⟨x, hreach, hu, hf, hseek, hw, hr⟩

end Streamlike
