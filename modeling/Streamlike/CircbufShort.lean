import Streamlike.CircbufSpsc

/-!
# Short blocking reads

`circbuf_read` leaves its loop when it finds the offsets equal and then
writing closed. These are two loads outside the lock. A producer that
publishes its last bytes and closes between them makes the call return
with those bytes unread; that is the only way. `ShortOk` is the invariant
of the runs in which writing is not closed there.

A history variable lists the consumer's calls, so that a return is of the
call that was made.
-/

namespace Streamlike

variable {α : Type} {c : Nat}

/-- The producer is inside a write call. -/
def PPc.writing : PPc α → Bool
  | .idle | .close | .closeLock | .closeStore | .closeSignal | .closeUnlock | .closed _ => false
  | _ => true

/-- What the consumer knows of the end of data. -/
def ShortOk (s : Shared α) : CPc α → Prop
  | .loopW k _ => k.read < k.len
  -- the offsets were equal
  | .loopD k => k.read < k.len ∧ (s.cb.wdone = true → circbufGetLength s.cb = 0)
  | .ret k => k.blocking = true → k.read < k.len →
      s.cb.wdone = true ∧ circbufGetLength s.cb = 0
  | _ => True

/-- A step of the producer that publishes nothing once writing is closed,
and does not close it while the consumer is between its two loads with
bytes to read. -/
theorem ShortOk.pstep {a : PAct α} {s s' : Shared α} {p p' : PPc α} {q : CPc α}
    (hs : ShortOk s q) (hr : RingOk c s) (hp : ProdOk s p)
    (hquiet : s.cb.wdone = true → s'.cb.woff = s.cb.woff ∧ s'.cb.wdone = true)
    (hclose : ∀ k, q = .loopD k → s'.cb.wdone = true → s.cb.wdone = false →
      circbufGetLength s'.cb = 0)
    (h : Streamlike.pstep a s p = some (s', p')) : ShortOk s' q := by
  have hframe := (pstep_ok hr hp h).frame
  have hsame : s.cb.wdone = true → circbufGetLength s'.cb = circbufGetLength s.cb := fun hd => by
    rw [circbufGetLength_eq, circbufGetLength_eq, hframe.size, hframe.roff, (hquiet hd).1]
  cases q with
  | loopW k roff => exact hs
  | loopD k =>
      refine ⟨hs.1, fun hd => ?_⟩
      cases hold : s.cb.wdone with
      | true => rw [hsame hold]; exact hs.2 hold
      | false => exact hclose k rfl hd hold
  | ret k =>
      intro hb hlt
      obtain ⟨hd, hempty⟩ := hs hb hlt
      exact ⟨(hquiet hd).2, (hsame hd).trans hempty⟩
  | _ => trivial

/-- A step of the consumer. -/
theorem ShortOk.cgo {s s' : Shared α} {q q' : CPc α} (hs : ShortOk s q) (hq : ConsOk s q)
    (h : Streamlike.cgo s q = some (s', q')) : ShortOk s' q' := by
  cases q with
  | idle => cases h
  | loop k =>
      obtain ⟨rfl, rfl⟩ := Prod.mk.inj (Option.some.inj h)
      split
      · next hlt => exact hlt
      · next hge => exact fun _ hlt => absurd hlt hge
  | loopW k roff =>
      obtain ⟨rfl, rfl⟩ := Prod.mk.inj (Option.some.inj h)
      obtain rfl : roff = s.cb.roff := hq.at_
      split
      · trivial
      · next heq =>
        refine ⟨hs, fun _ => ?_⟩
        rw [circbufGetLength_eq, of_not_not heq, ByteRing.used_self]
  | loopD k =>
      obtain ⟨rfl, rfl⟩ := Prod.mk.inj (Option.some.inj h)
      split
      · next hd => exact fun _ _ => ⟨hd, hs.2 hd⟩
      · trivial
  | empty2 k roff | empty3 k | close =>
      obtain ⟨rfl, rfl⟩ := Prod.mk.inj (Option.some.inj h)
      split <;> trivial
  | lockW k | lockR d roff | parked k | closeLock =>
      obtain ⟨_, h⟩ := Option.ite_none_right_eq_some.mp h
      obtain ⟨rfl, rfl⟩ := Prod.mk.inj (Option.some.inj h)
      trivial
  | copy k m todo =>
      cases todo <;>
        (obtain ⟨rfl, rfl⟩ := Prod.mk.inj (Option.some.inj h)
         trivial)
  | unlockR d =>
      obtain ⟨rfl, rfl⟩ := Prod.mk.inj (Option.some.inj h)
      cases d with
      | read k n =>
          dsimp only
          split
          · trivial
          · next hb => exact fun hblock => absurd hblock hb
      | dispose n => trivial
  | _ =>
      obtain ⟨rfl, rfl⟩ := Prod.mk.inj (Option.some.inj h)
      trivial

theorem ShortOk.cstep {a : CAct α} {s s' : Shared α} {q q' : CPc α} (hs : ShortOk s q)
    (hq : ConsOk s q) (h : Streamlike.cstep a s q = some (s', q')) : ShortOk s' q' := by
  cases cstep_cases h with
  | go h => exact hs.cgo hq h
  | call r => cases r <;> trivial
  | spurious hparked => trivial

/-! ## The producer's publishes -/

/-- The producer changes `woff` and `wdone` in one step each. -/
inductive Publishes (a : PAct α) (s s' : Shared α) (p p' : PPc α) : Prop
  | none (hwoff : s'.cb.woff = s.cb.woff) (hwdone : s'.cb.wdone = s.cb.wdone)
      (hwriting : p'.writing = true → p.writing = true ∨ ∃ r, a = .call r ∧ r ≠ .closeWrite)
  | woff {k : WCall α} {woff n : Nat} {got : List α} (hp : p = .storeW k woff n got)
      (hp' : p' = .signalW k n) (hwdone : s'.cb.wdone = s.cb.wdone)
  | wdone (hp : p = .closeStore) (hp' : p' = .closeSignal) (hwoff : s'.cb.woff = s.cb.woff)
      (hwdone : s'.cb.wdone = true)

theorem pgo_publishes {s s' : Shared α} {p p' : PPc α} (h : pgo s p = some (s', p')) :
    Publishes .go s s' p p' := by
  cases p with
  | idle => cases h
  | lockR k | lockW k woff n got | parked k =>
      obtain ⟨_, h⟩ := Option.ite_none_right_eq_some.mp h
      obtain ⟨rfl, rfl⟩ := Prod.mk.inj (Option.some.inj h)
      exact .none rfl rfl fun _ => .inl rfl
  | closeLock =>
      obtain ⟨_, h⟩ := Option.ite_none_right_eq_some.mp h
      obtain ⟨rfl, rfl⟩ := Prod.mk.inj (Option.some.inj h)
      exact .none rfl rfl nofun
  | copy k b m todo =>
      cases todo <;>
        (obtain ⟨rfl, rfl⟩ := Prod.mk.inj (Option.some.inj h)
         exact .none rfl rfl fun _ => .inl rfl)
  | writer k woff total got todo =>
      cases todo with
      | nil =>
          obtain ⟨rfl, rfl⟩ := Prod.mk.inj (Option.some.inj h)
          exact .none rfl rfl fun _ => .inl rfl
      | cons r todo => cases h
  | storeW k woff n got =>
      obtain ⟨rfl, rfl⟩ := Prod.mk.inj (Option.some.inj h)
      exact .woff rfl rfl rfl
  | close =>
      obtain ⟨rfl, rfl⟩ := Prod.mk.inj (Option.some.inj h)
      exact .none rfl rfl (by split <;> nofun)
  | closeStore =>
      obtain ⟨rfl, rfl⟩ := Prod.mk.inj (Option.some.inj h)
      exact .wdone rfl rfl rfl rfl
  | closeSignal | closeUnlock | closed code =>
      obtain ⟨rfl, rfl⟩ := Prod.mk.inj (Option.some.inj h)
      exact .none rfl rfl nofun
  | _ =>
      obtain ⟨rfl, rfl⟩ := Prod.mk.inj (Option.some.inj h)
      exact .none rfl rfl fun _ => .inl rfl

theorem pstep_publishes {a : PAct α} {s s' : Shared α} {p p' : PPc α}
    (h : pstep a s p = some (s', p')) : Publishes a s s' p p' := by
  cases pstep_cases h with
  | go h => exact pgo_publishes h
  | call r =>
      refine .none rfl rfl fun hw => .inr ⟨r, rfl, ?_⟩
      rintro rfl
      cases hw
  | store b hi => exact .none rfl rfl fun _ => .inl rfl
  | wret hn => exact .none rfl rfl fun _ => .inl rfl
  | spurious hparked => exact .none rfl rfl fun _ => .inl rfl

/-! ## The consumer's calls -/

/-- The read call in progress. -/
def CPc.call : CPc α → Option (RCall α)
  | .loop k | .loopW k _ | .loopD k | .lockW k | .empty1 k | .empty2 k _ | .empty3 k | .wait k
  | .parked k | .unlockW k | .someR k | .someW k _ | .copy k _ _ | .lockR (.read k _) _
  | .storeR (.read k _) _ | .signalR (.read k _) | .unlockR (.read k _) | .ret k => some k
  | _ => none

/-- What a read call keeps from its beginning. -/
def RCall.args (k : RCall α) : Nat × Bool × List α := (k.len, k.blocking, k.pre)

theorem cgo_call {s s' : Shared α} {q q' : CPc α} (h : Streamlike.cgo s q = some (s', q'))
    (hret : ∀ k, q ≠ .ret k) : q'.call.map RCall.args = q.call.map RCall.args := by
  cases q with
  | idle => cases h
  | ret k => exact absurd rfl (hret k)
  | lockW k | lockR d roff | parked k | closeLock =>
      obtain ⟨_, h⟩ := Option.ite_none_right_eq_some.mp h
      obtain ⟨rfl, rfl⟩ := Prod.mk.inj (Option.some.inj h)
      first | rfl | (cases d <;> rfl)
  | loop k | loopW k roff | loopD k | empty2 k roff | empty3 k | close =>
      obtain ⟨rfl, rfl⟩ := Prod.mk.inj (Option.some.inj h)
      split <;> rfl
  | copy k m todo =>
      cases todo <;>
        (obtain ⟨rfl, rfl⟩ := Prod.mk.inj (Option.some.inj h)
         rfl)
  | unlockR d =>
      obtain ⟨rfl, rfl⟩ := Prod.mk.inj (Option.some.inj h)
      cases d with
      | read k n => dsimp only; split <;> rfl
      | dispose n => rfl
  | storeR d roff | signalR d =>
      obtain ⟨rfl, rfl⟩ := Prod.mk.inj (Option.some.inj h)
      cases d <;> rfl
  | _ =>
      obtain ⟨rfl, rfl⟩ := Prod.mk.inj (Option.some.inj h)
      rfl

/-- The consumer's calls so far. -/
def CCall.watch (a : Act α) (_ : Sys α) (calls : List (CCall α)) : List (CCall α) :=
  match a with
  | .cons (.call r) => calls ++ [r]
  | _ => calls

/-- The two threads and the list of the consumer's calls. -/
def spscCalls (α : Type) (c : Nat) : Lts (Sys α × List (CCall α)) (Act α) :=
  (spsc α c).watched [] CCall.watch

/-- The last call is the one in progress. -/
def CalledAs (calls : List (CCall α)) (q : CPc α) : Prop :=
  ∀ k, q.call = some k → ∃ buf, calls.getLast? =
    some (if k.blocking then .read buf k.len else .readSome buf k.len)

/-- A step inside a call, or its return. -/
theorem CalledAs.keep {calls : List (CCall α)} {q q' : CPc α} (hc : CalledAs calls q)
    (h : q'.call = none ∨ q'.call.map RCall.args = q.call.map RCall.args) :
    CalledAs calls q' := by
  intro k' hk'
  rw [hk'] at h
  obtain ⟨k, hk, hargs⟩ := Option.map_eq_some_iff.mp (h.resolve_left nofun).symm
  obtain ⟨hlen, hrest⟩ := Prod.mk.inj hargs
  obtain ⟨hblock, -⟩ := Prod.mk.inj hrest
  rw [← hlen, ← hblock]
  exact hc k hk

theorem cstep_calledAs {a : CAct α} {s s' : Shared α} {q q' : CPc α} {x : Sys α}
    {calls : List (CCall α)} (hc : CalledAs calls q)
    (h : Streamlike.cstep a s q = some (s', q')) :
    CalledAs (CCall.watch (.cons a) x calls) q' := by
  cases cstep_cases h with
  | go h =>
      refine hc.keep ?_
      by_cases hret : ∃ k, q = .ret k
      · obtain ⟨k, rfl⟩ := hret
        obtain ⟨-, rfl⟩ := Prod.mk.inj (Option.some.inj h)
        exact .inl rfl
      · exact .inr (cgo_call h fun k hk => hret ⟨k, hk⟩)
  | call r =>
      intro k hk
      cases r with
      | readSome buf n | read buf n =>
          obtain rfl := Option.some.inj hk
          exact ⟨buf, List.getLast?_concat⟩
      | _ => cases hk
  | spurious hparked => exact hc

theorem calledAs_of_reach {C : Sys α → Act α → Prop} {x : Sys α} {calls : List (CCall α)}
    (h : (spscCalls α c).Reach (fun y a => C y.1 a) (x, calls)) : CalledAs calls x.c := by
  refine h.invariant (I := fun y => CalledAs y.2 y.1.c) ?_ ?_
  · rintro ⟨_, _⟩ ⟨⟨env, cb, -, -, rfl⟩, -⟩
    exact nofun
  rintro ⟨s, calls⟩ a ⟨s', calls'⟩ - hc - hstep
  obtain ⟨_, hs, heq⟩ := Option.map_eq_some_iff.mp hstep
  obtain ⟨rfl, rfl⟩ := Prod.mk.inj heq
  rcases sysStep_cases hs with ⟨b, rfl, -, hkeep⟩ | ⟨b, rfl, hb, -⟩
  · dsimp only
    rw [hkeep]
    exact hc
  · exact cstep_calledAs (x := s) hc hb

/-! ## Runs -/

/-- The producer writes, and then closes: no write call begins once
writing is closed. -/
def Disciplined (x : Sys α) (a : Act α) : Prop :=
  ∀ r, a = .prod (.call r) → r ≠ .closeWrite → x.sh.cb.wdone = false

/-- Writing is closed between the consumer's load of `woff`, which found
the buffer empty, and its load of `wdone`, with bytes published since. -/
def ClosesBetween (x : Sys α) (a : Act α) : Prop :=
  a = .prod .go ∧ x.p = .closeStore ∧ (∃ k, x.c = .loopD k) ∧ circbufGetLength x.sh.cb ≠ 0

/-- The last call was `circbuf_read(buf, len)`: it is about to return fewer
than `len` bytes only at the end of data. -/
def Sys.ShortAtEnd (x : Sys α) (calls : List (CCall α)) : Prop :=
  ∀ buf len k, calls.getLast? = some (.read buf len) → x.c = .ret k → k.read < len →
    x.sh.cb.wdone = true ∧ x.sh.released = x.sh.produced

/-- No write is in progress once writing is closed. -/
theorem quiet_of_reach {x : Sys α} {ok : Sys α → Act α → Prop}
    (hok : ∀ x a, ok x a → Disciplined x a) (h : (spsc α c).Reach ok x) :
    x.sh.cb.wdone = true → x.p.writing = false := by
  refine h.invariant (I := fun x => x.sh.cb.wdone = true → x.p.writing = false) ?_ ?_
  · rintro _ ⟨env, cb, -, -, rfl⟩ -
    rfl
  intro s a s' hreach hq hdis hstep
  rcases sysStep_cases hstep with ⟨b, rfl, hb, hc⟩ | ⟨b, rfl, hb, hp⟩
  · intro hd
    cases pstep_publishes hb with
    | none hwoff hwdone hwriting =>
        rw [hwdone] at hd
        refine Bool.eq_false_iff.mpr fun hw => ?_
        rcases hwriting hw with hold | ⟨r, rfl, hr⟩
        · rw [hq hd] at hold; cases hold
        · rw [hok _ _ hdis r rfl hr] at hd; cases hd
    | woff hp hp' hwdone =>
        have hold := hq (hwdone ▸ hd)
        rw [hp] at hold
        cases hold
    | wdone hp hp' _ _ => rw [hp']; rfl
  · have hframe := (cstep_ok (inv_of_reach hreach).ring (inv_of_reach hreach).cons hb).frame
    rw [hp, hframe.wdone]
    exact hq

/-- In a run of a disciplined producer in which writing is never closed
between the consumer's two loads, a short blocking read means end of
data. -/
theorem shortAtEnd_of_reach {x : Sys α} {calls : List (CCall α)}
    (h : (spscCalls α c).Reach (fun y a => Disciplined y.1 a ∧ ¬ ClosesBetween y.1 a) (x, calls)) :
    x.ShortAtEnd calls := by
  have hplain : (spsc α c).Reach (fun x a => Disciplined x a ∧ ¬ ClosesBetween x a) x :=
    Lts.Reach.forget (x := (x, calls)) h
  have hshort : ShortOk x.sh x.c := by
    refine hplain.invariant (I := fun x => ShortOk x.sh x.c) ?_ ?_
    · rintro _ ⟨env, cb, -, -, rfl⟩
      trivial
    rintro s a s' hreach hs ⟨-, hrace⟩ hstep
    have hinv := inv_of_reach hreach
    have hquiet := quiet_of_reach (fun _ _ h => h.1) hreach
    rcases sysStep_cases hstep with ⟨b, rfl, hb, hc⟩ | ⟨b, rfl, hb, hp⟩
    · rw [hc]
      have hpub := pstep_publishes hb
      refine hs.pstep hinv.ring hinv.prod ?_ ?_ hb
      · intro hd
        cases hpub with
        | none hwoff hwdone _ => exact ⟨hwoff, hwdone.trans hd⟩
        | woff hp _ _ =>
            have hold := hquiet hd
            rw [hp] at hold
            cases hold
        | wdone _ _ hwoff hwdone => exact ⟨hwoff, hwdone⟩
      · intro k hk hd hopen
        cases hpub with
        | none _ hwdone _ => rw [hwdone, hopen] at hd; cases hd
        | woff _ _ hwdone => rw [hwdone, hopen] at hd; cases hd
        | wdone hp _ _ _ =>
            rw [hp] at hb
            cases b with
            | go =>
                by_contra hlen
                obtain ⟨hsh, -⟩ := Prod.mk.inj (Option.some.inj hb)
                exact hrace ⟨rfl, hp, ⟨k, hk⟩, by rwa [← hsh] at hlen⟩
            | _ => cases hb
    · exact hs.cstep hinv.cons hb
  intro buf len k hlast hc hlt
  obtain ⟨buf', hcall⟩ := calledAs_of_reach (C := fun x a => Disciplined x a ∧ ¬ ClosesBetween x a)
    h k (by rw [hc]; rfl)
  rw [hlast, Option.some.injEq] at hcall
  rw [hc] at hshort
  split at hcall
  case isFalse => cases hcall
  case isTrue hblock =>
    obtain ⟨-, rfl⟩ := CCall.read.inj hcall
    obtain ⟨hd, hempty⟩ := hshort hblock hlt
    refine ⟨hd, ?_⟩
    have hnil : x.sh.cb.unread = [] := List.eq_nil_of_length_eq_zero (by rw [length_unread, hempty])
    rw [(inv_of_reach hplain).ring.history, hnil, List.append_nil]

/-- A disciplined producer writes one byte and closes while the consumer,
which asked for one byte, is between its two loads: the read returns 0. -/
theorem short_read_not_at_end :
    ¬ ∀ (c : Nat) (x : Sys Nat) (calls : List (CCall Nat)),
        (spscCalls Nat c).Reach (fun y a => Disciplined y.1 a) (x, calls) → x.ShortAtEnd calls := by
  intro hall
  let ok : Sys Nat × List (CCall Nat) → Act Nat → Prop := fun y a => Disciplined y.1 a
  let asks : List (Act Nat) := .cons (.call (.read (fun _ => 0) 1)) :: List.replicate 2 (.cons .go)
  let writes : List (Act Nat) := List.replicate 9 (.prod .go) ++ .prod (.call .closeWrite)
    :: List.replicate 3 (.prod .go) ++ [.cons .go]
  have hrun : ∃ x y z k, (spscCalls Nat 1).run asks
        (⟨.fresh ⟨fun _ => 0, 2, 0, 0, false, false⟩, .idle, .idle⟩, []) = some x
      ∧ x.1.sh.cb.wdone = false
      ∧ (spscCalls Nat 1).step (.prod (.call (.writeSome (fun _ => 7) 1))) x = some y
      ∧ (spscCalls Nat 1).run writes y = some z
      ∧ z.2.getLast? = some (.read (fun _ => 0) 1) ∧ z.1.c = .ret k ∧ k.read < 1
      ∧ z.1.sh.released = [] ∧ z.1.sh.produced = [7] :=
    ⟨_, _, _, _, rfl, rfl, rfl, rfl, rfl, rfl, Nat.zero_lt_one, rfl, rfl⟩
  obtain ⟨x, y, z, k, hasks, hopen, hcall, hwrites, hlast, hret, hlt, hrel, hprod⟩ := hrun
  have hx : (spscCalls Nat 1).Reach ok x := by
    refine .run ?_ (.init ⟨⟨.ample 0, _, rfl, by decide, rfl⟩, rfl⟩) hasks
    rintro a ha s r rfl
    simp [asks] at ha
  have hy : (spscCalls Nat 1).Reach ok y := .step hx (fun _ _ _ => hopen) hcall
  have hz : (spscCalls Nat 1).Reach ok z := by
    refine .run ?_ hy hwrites
    rintro a ha s r rfl hr
    simp [writes, hr] at ha
  obtain ⟨-, hdone⟩ := hall 1 z.1 z.2 hz _ 1 k hlast hret hlt
  rw [hrel, hprod] at hdone
  cases hdone

end Streamlike
