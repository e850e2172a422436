import Streamlike.CircbufSpsc

/-!
# Blocking calls lose no wake-up

A thread that waits has tested the buffer under the lock that the other
thread takes to change it, and the other thread signals before it gives
that lock back. So while a thread is parked and not signalled, either its
test still holds, or the other thread is inside the critical section that
made it fail, about to signal.
-/

namespace Streamlike

variable {α : Type} {c : Nat}

/-- The producer has published or closed, and signals `wcond` next. -/
def PPc.signalsW : PPc α → Bool
  | .signalW .. | .closeSignal => true
  | _ => false

/-- The consumer has released or closed, and signals `rcond` next. -/
def CPc.signalsR : CPc α → Bool
  | .signalR .. | .closeSignal => true
  | _ => false

/-- The reasons to be parked. -/
structure WakeOk (s : Shared α) (p : PPc α) (q : CPc α) : Prop where
  wcond : s.wcond = .parked →
    (s.cb.roff = s.cb.woff ∧ s.cb.wdone = false) ∨ p.signalsW = true
  rcond : s.rcond = .parked →
    (circbufGetLength s.cb = s.cb.size - 1 ∧ s.cb.rdone = false) ∨ q.signalsR = true

/-! ## What a step does to the queues -/

/-- The producer changes what the consumer waits for only right before it
signals, and parks itself only on a full buffer. -/
structure ProdWake (s s' : Shared α) (p p' : PPc α) : Prop where
  wcond : p'.signalsW = true ∨ s'.wcond ≠ .parked
    ∨ (s'.wcond = s.wcond ∧ p.signalsW = false ∧ s'.cb.woff = s.cb.woff
      ∧ s'.cb.wdone = s.cb.wdone)
  rcond : s'.rcond = .parked →
    circbufGetLength s'.cb = s'.cb.size - 1 ∧ s'.cb.rdone = false

/-- A step that is neither a wait nor a publish, a close or a signal. -/
theorem ProdWake.quiet {s s' : Shared α} {p p' : PPc α} (hr : s'.rcond ≠ .parked)
    (hsig : p.signalsW = false) (hw : s'.wcond = s.wcond) (hwoff : s'.cb.woff = s.cb.woff)
    (hwdone : s'.cb.wdone = s.cb.wdone) : ProdWake s s' p p' where
  wcond := .inr (.inr ⟨hw, hsig, hwoff, hwdone⟩)
  rcond := fun hparked => absurd hparked hr

theorem pgo_wake {s s' : Shared α} {p p' : PPc α} (hp : ProdOk s p)
    (h : pgo s p = some (s', p')) : ProdWake s s' p p' := by
  have hrun : p.waits = false → s.rcond ≠ .parked := fun hw => by
    rw [hp.rcond.mpr hw]; nofun
  cases p with
  | idle => cases h
  | lockR k | closeLock =>
      obtain ⟨_, h⟩ := Option.ite_none_right_eq_some.mp h
      obtain ⟨rfl, rfl⟩ := Prod.mk.inj (Option.some.inj h)
      exact .quiet (hrun rfl) rfl rfl rfl rfl
  | lockW k woff n got =>
      obtain ⟨_, h⟩ := Option.ite_none_right_eq_some.mp h
      obtain ⟨rfl, rfl⟩ := Prod.mk.inj (Option.some.inj h)
      exact .quiet (hrun rfl) rfl rfl rfl rfl
  | wait k =>
      obtain ⟨rfl, rfl⟩ := Prod.mk.inj (Option.some.inj h)
      exact ⟨.inr (.inr ⟨rfl, rfl, rfl, rfl⟩), fun _ => hp.at_⟩
  | parked k =>
      obtain ⟨_, h⟩ := Option.ite_none_right_eq_some.mp h
      obtain ⟨rfl, rfl⟩ := Prod.mk.inj (Option.some.inj h)
      exact .quiet nofun rfl rfl rfl rfl
  | copy k b m todo =>
      cases todo <;>
        (obtain ⟨rfl, rfl⟩ := Prod.mk.inj (Option.some.inj h)
         exact .quiet (hrun rfl) rfl rfl rfl rfl)
  | writer k woff total got todo =>
      cases todo with
      | nil =>
          obtain ⟨rfl, rfl⟩ := Prod.mk.inj (Option.some.inj h)
          exact .quiet (hrun rfl) rfl rfl rfl rfl
      | cons r todo => cases h
  -- what the consumer waits for changes here
  | storeW k woff n got =>
      obtain ⟨rfl, rfl⟩ := Prod.mk.inj (Option.some.inj h)
      exact ⟨.inl rfl, fun hparked => absurd hparked (hrun rfl)⟩
  | closeStore =>
      obtain ⟨rfl, rfl⟩ := Prod.mk.inj (Option.some.inj h)
      exact ⟨.inl rfl, fun hparked => absurd hparked (hrun rfl)⟩
  | signalW k n | closeSignal =>
      obtain ⟨rfl, rfl⟩ := Prod.mk.inj (Option.some.inj h)
      exact ⟨.inr (.inl (Wait.signal_ne_parked _)), fun hparked => absurd hparked (hrun rfl)⟩
  | _ =>
      obtain ⟨rfl, rfl⟩ := Prod.mk.inj (Option.some.inj h)
      exact .quiet (hrun rfl) rfl rfl rfl rfl

theorem pstep_wake {a : PAct α} {s s' : Shared α} {p p' : PPc α} (hp : ProdOk s p)
    (h : pstep a s p = some (s', p')) : ProdWake s s' p p' := by
  have hrun : p.waits = false → s.rcond ≠ .parked := fun hw => by
    rw [hp.rcond.mpr hw]; nofun
  cases pstep_cases h with
  | go h => exact pgo_wake hp h
  | call r => exact .quiet (hrun rfl) rfl rfl rfl rfl
  | store b hi => exact .quiet (hrun rfl) rfl rfl rfl rfl
  | wret hn => exact .quiet (hrun rfl) rfl rfl rfl rfl
  | spurious hparked => exact .quiet nofun rfl rfl rfl rfl

/-- The consumer's counterpart. -/
structure ConsWake (s s' : Shared α) (q q' : CPc α) : Prop where
  rcond : q'.signalsR = true ∨ s'.rcond ≠ .parked
    ∨ (s'.rcond = s.rcond ∧ q.signalsR = false ∧ s'.cb.roff = s.cb.roff
      ∧ s'.cb.rdone = s.cb.rdone)
  wcond : s'.wcond = .parked → s'.cb.roff = s'.cb.woff ∧ s'.cb.wdone = false

theorem ConsWake.quiet {s s' : Shared α} {q q' : CPc α} (hw : s'.wcond ≠ .parked)
    (hsig : q.signalsR = false) (hr : s'.rcond = s.rcond) (hroff : s'.cb.roff = s.cb.roff)
    (hrdone : s'.cb.rdone = s.cb.rdone) : ConsWake s s' q q' where
  rcond := .inr (.inr ⟨hr, hsig, hroff, hrdone⟩)
  wcond := fun hparked => absurd hparked hw

theorem cgo_wake {s s' : Shared α} {q q' : CPc α} (hq : ConsOk s q)
    (h : cgo s q = some (s', q')) : ConsWake s s' q q' := by
  have hrun : q.waits = false → s.wcond ≠ .parked := fun hw => by
    rw [hq.wcond.mpr hw]; nofun
  cases q with
  | idle => cases h
  | lockW k | closeLock =>
      obtain ⟨_, h⟩ := Option.ite_none_right_eq_some.mp h
      obtain ⟨rfl, rfl⟩ := Prod.mk.inj (Option.some.inj h)
      exact .quiet (hrun rfl) rfl rfl rfl rfl
  | lockR d roff =>
      obtain ⟨_, h⟩ := Option.ite_none_right_eq_some.mp h
      obtain ⟨rfl, rfl⟩ := Prod.mk.inj (Option.some.inj h)
      exact .quiet (hrun rfl) rfl rfl rfl rfl
  | wait k =>
      obtain ⟨rfl, rfl⟩ := Prod.mk.inj (Option.some.inj h)
      exact ⟨.inr (.inr ⟨rfl, rfl, rfl, rfl⟩), fun _ => hq.at_⟩
  | parked k =>
      obtain ⟨_, h⟩ := Option.ite_none_right_eq_some.mp h
      obtain ⟨rfl, rfl⟩ := Prod.mk.inj (Option.some.inj h)
      exact .quiet nofun rfl rfl rfl rfl
  | copy k m todo =>
      cases todo <;>
        (obtain ⟨rfl, rfl⟩ := Prod.mk.inj (Option.some.inj h)
         exact .quiet (hrun rfl) rfl rfl rfl rfl)
  -- what the producer waits for changes here
  | storeR d roff =>
      obtain ⟨rfl, rfl⟩ := Prod.mk.inj (Option.some.inj h)
      exact ⟨.inl rfl, fun hparked => absurd hparked (hrun rfl)⟩
  | closeStore =>
      obtain ⟨rfl, rfl⟩ := Prod.mk.inj (Option.some.inj h)
      exact ⟨.inl rfl, fun hparked => absurd hparked (hrun rfl)⟩
  | signalR d | closeSignal =>
      obtain ⟨rfl, rfl⟩ := Prod.mk.inj (Option.some.inj h)
      exact ⟨.inr (.inl (Wait.signal_ne_parked _)), fun hparked => absurd hparked (hrun rfl)⟩
  | _ =>
      obtain ⟨rfl, rfl⟩ := Prod.mk.inj (Option.some.inj h)
      exact .quiet (hrun rfl) rfl rfl rfl rfl

theorem cstep_wake {a : CAct α} {s s' : Shared α} {q q' : CPc α} (hq : ConsOk s q)
    (h : cstep a s q = some (s', q')) : ConsWake s s' q q' := by
  have hrun : q.waits = false → s.wcond ≠ .parked := fun hw => by
    rw [hq.wcond.mpr hw]; nofun
  cases cstep_cases h with
  | go h => exact cgo_wake hq h
  | call r => exact .quiet (hrun rfl) rfl rfl rfl rfl
  | spurious hparked => exact .quiet nofun rfl rfl rfl rfl

/-! ## The invariant over runs -/

/-- A step of the producer, whatever the consumer stands at. -/
theorem WakeOk.pstep {a : PAct α} {s s' : Shared α} {p p' : PPc α} {q : CPc α}
    (hw : WakeOk s p q) (hr : RingOk c s) (hp : ProdOk s p)
    (h : Streamlike.pstep a s p = some (s', p')) : WakeOk s' p' q := by
  have hframe := (pstep_ok hr hp h).frame
  have hwake := pstep_wake hp h
  refine ⟨fun hparked => ?_, fun hparked => .inl (hwake.rcond hparked)⟩
  rcases hwake.wcond with hsig | hne | ⟨hcond, hsig, hwoff, hwdone⟩
  · exact .inr hsig
  · exact absurd hparked hne
  · rcases hw.wcond (hcond ▸ hparked) with ⟨hempty, hopen⟩ | hsig'
    · exact .inl ⟨hframe.roff.trans (hempty.trans hwoff.symm), hwdone.trans hopen⟩
    · rw [hsig] at hsig'; cases hsig'

/-- A step of the consumer, whatever the producer stands at. -/
theorem WakeOk.cstep {a : CAct α} {s s' : Shared α} {p : PPc α} {q q' : CPc α}
    (hw : WakeOk s p q) (hr : RingOk c s) (hq : ConsOk s q)
    (h : Streamlike.cstep a s q = some (s', q')) : WakeOk s' p q' := by
  have hframe := (cstep_ok hr hq h).frame
  have hwake := cstep_wake hq h
  refine ⟨fun hparked => .inl (hwake.wcond hparked), fun hparked => ?_⟩
  rcases hwake.rcond with hsig | hne | ⟨hcond, hsig, hroff, hrdone⟩
  · exact .inr hsig
  · exact absurd hparked hne
  · rcases hw.rcond (hcond ▸ hparked) with ⟨hfull, hopen⟩ | hsig'
    · refine .inl ⟨?_, hrdone.trans hopen⟩
      rw [circbufGetLength_eq, hframe.size, hframe.woff, hroff, ← circbufGetLength_eq, hfull]
    · rw [hsig] at hsig'; cases hsig'

theorem wakeOk_of_reach {ok : Sys α → Act α → Prop} {x : Sys α}
    (h : (spsc α c).Reach ok x) : WakeOk x.sh x.p x.c := by
  refine h.invariant (I := fun x => WakeOk x.sh x.p x.c) ?_ ?_
  · rintro _ ⟨env, cb, -, -, rfl⟩
    exact ⟨nofun, nofun⟩
  intro s a s' hreach hw _ hstep
  have hinv := inv_of_reach hreach
  rcases sysStep_cases hstep with ⟨b, rfl, hb, hc⟩ | ⟨b, rfl, hb, hp⟩
  · rw [hc]; exact hw.pstep hinv.ring hinv.prod hb
  · rw [hp]; exact hw.cstep hinv.ring hinv.cons hb

/-- `circbuf_init` refuses a capacity of 0. -/
theorem capacity_pos {ok : Sys α → Act α → Prop} {x : Sys α} (h : (spsc α c).Reach ok x) :
    0 < c := by
  refine h.invariant (I := fun _ => 0 < c) ?_ (fun _ _ _ _ hc _ _ => hc)
  rintro _ ⟨env, cb, hinit, -, -⟩
  by_contra hzero
  rw [circbufInit, if_pos (by omega)] at hinit
  cases hinit

/-- A wake-up of the consumer is pending: it has been signalled, or the
producer's next step signals it. -/
def Sys.WakesConsumer (x : Sys α) : Prop :=
  x.sh.wcond = .woken ∨ ∃ x', sysStep (.prod .go) x = some x' ∧ x'.sh.wcond = .woken

/-- A wake-up of the producer is pending. -/
def Sys.WakesProducer (x : Sys α) : Prop :=
  x.sh.rcond = .woken ∨ ∃ x', sysStep (.cons .go) x = some x' ∧ x'.sh.rcond = .woken

theorem wakesConsumer_of_signalsW {x : Sys α} (hparked : x.sh.wcond = .parked)
    (hp : x.p.signalsW = true) : x.WakesConsumer := by
  obtain ⟨s, p, q⟩ := x
  have hwoken : s.wcond.signal = .woken := congrArg Wait.signal hparked
  cases p with
  | signalW k n => exact .inr ⟨_, rfl, hwoken⟩
  | closeSignal => exact .inr ⟨_, rfl, hwoken⟩
  | _ => cases hp

theorem wakesProducer_of_signalsR {x : Sys α} (hparked : x.sh.rcond = .parked)
    (hq : x.c.signalsR = true) : x.WakesProducer := by
  obtain ⟨s, p, q⟩ := x
  have hwoken : s.rcond.signal = .woken := congrArg Wait.signal hparked
  cases q with
  | signalR d => exact .inr ⟨_, rfl, hwoken⟩
  | closeSignal => exact .inr ⟨_, rfl, hwoken⟩
  | _ => cases hq

/-- **Blocking calls lose no wake-up.** A parked consumer with no wake-up
pending faces an empty buffer that is not closed for writing; a parked
producer with none faces a full buffer that is not closed for reading;
they are never both in that state. -/
theorem no_lost_wakeup (c : Nat) (x : Sys α) (h : (spsc α c).Reach Lts.Any x) :
    (∀ k, x.c = .parked k → ¬ x.WakesConsumer →
        circbufGetLength x.sh.cb = 0 ∧ x.sh.cb.wdone = false)
      ∧ (∀ k, x.p = .parked k → ¬ x.WakesProducer →
        circbufGetLength x.sh.cb = c ∧ x.sh.cb.rdone = false)
      ∧ ∀ k k', x.c = .parked k → x.p = .parked k' → x.WakesConsumer ∨ x.WakesProducer := by
  have hinv := inv_of_reach h
  have hwake := wakeOk_of_reach h
  have hcons : ∀ k, x.c = .parked k → ¬ x.WakesConsumer →
      circbufGetLength x.sh.cb = 0 ∧ x.sh.cb.wdone = false := by
    intro k hc hno
    have hwaits : x.sh.wcond ≠ .out := fun hout => by
      have := hinv.cons.wcond.mp hout
      rw [hc] at this
      cases this
    have hparked := Wait.eq_parked hwaits fun hwoken => hno (.inl hwoken)
    rcases hwake.wcond hparked with ⟨hempty, hopen⟩ | hsig
    · exact ⟨by rw [circbufGetLength_eq, hempty, ByteRing.used_self], hopen⟩
    · exact absurd (wakesConsumer_of_signalsW hparked hsig) hno
  have hprod : ∀ k, x.p = .parked k → ¬ x.WakesProducer →
      circbufGetLength x.sh.cb = c ∧ x.sh.cb.rdone = false := by
    intro k hp hno
    have hwaits : x.sh.rcond ≠ .out := fun hout => by
      have := hinv.prod.rcond.mp hout
      rw [hp] at this
      cases this
    have hparked := Wait.eq_parked hwaits fun hwoken => hno (.inl hwoken)
    rcases hwake.rcond hparked with ⟨hfull, hopen⟩ | hsig
    · exact ⟨by rw [hfull, hinv.ring.size, Nat.add_sub_cancel], hopen⟩
    · exact absurd (wakesProducer_of_signalsR hparked hsig) hno
  refine ⟨hcons, hprod, fun k k' hc hp => ?_⟩
  by_contra hno
  obtain ⟨hnc, hnp⟩ := not_or.mp hno
  have hempty := (hcons k hc hnc).1
  have hfull := (hprod k' hp hnp).1
  have hpos := capacity_pos h
  omega

/-- A consumer that asks an empty buffer for a byte parks. -/
theorem no_lost_wakeup_run :
    ∃ x : Sys Nat, (∃ k, x.c = .parked k) ∧ x.sh.wcond = .parked
      ∧ circbufGetLength x.sh.cb = 0 ∧ x.sh.cb.wdone = false := by
  have hrun : ∃ x k, (spsc Nat 1).run
      (.cons (.call (.read (fun _ => 0) 1)) :: List.replicate 8 (.cons .go))
      ⟨.fresh ⟨fun _ => 0, 2, 0, 0, false, false⟩, .idle, .idle⟩ = some x
      ∧ x.c = .parked k ∧ x.sh.wcond = .parked ∧ x.p = .idle := ⟨_, _, rfl, rfl, rfl, rfl⟩
  obtain ⟨x, k, hrun, hc, hparked, hp⟩ := hrun
  have hreach : (spsc Nat 1).Reach Lts.Any x :=
    .run (fun _ _ _ => trivial) (.init ⟨.ample 0, _, rfl, by decide, rfl⟩) hrun
  have hno : ¬ x.WakesConsumer := by
    simp [Sys.WakesConsumer, hparked, hp, sysStep, pstep, pgo]
  exact ⟨x, ⟨k, hc⟩, hparked, (no_lost_wakeup 1 x hreach).1 k hc hno⟩

end Streamlike
