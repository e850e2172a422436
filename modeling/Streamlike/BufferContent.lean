import Streamlike.BufferCalls
import Streamlike.BufferData
import Streamlike.Content

/-!
# The buffered stream and the content of its inner stream

To its user the stream over an inner stream `D` is `D`, read and sought,
with reads that may come up short (`content_of_reach`): every event of a run
is one of the content at the position that the events before it lead to.

Behind the user's back the filler reads on, but never further than the
buffer is large (`readahead_le`).
-/

namespace Streamlike

variable {α β : Type} {c step : Nat}

/-! ## No more than it was asked for -/

/-- What a read call has copied and not yet counted. -/
def CPc.pending : CPc α → Nat
  | .copy _ m _ => m.ret
  | .lockR (.read _ n) _ | .storeR (.read _ n) _ | .signalR (.read _ n) | .unlockR (.read _ n) => n
  | _ => 0

/-- A read call in progress keeps to its length. -/
def CPc.AtMost (q : CPc α) : Prop := ∀ k, q.call = some k → k.read + q.pending ≤ k.len

theorem cgo_atMost {s s' : Shared α} {q q' : CPc α} (hr : RingOk c s) (hcons : ConsOk s q)
    (hq : q.AtMost) (h : cgo s q = some (s', q')) : q'.AtMost := by
  have hlocal : ∀ k, q.call = some k → q.pending = 0 → ∀ k', some k = some k' →
      k'.read + 0 ≤ k'.len := by
    intro k hk hpending k' heq
    obtain rfl := Option.some.inj heq
    have hle := hq k hk
    rwa [hpending] at hle
  cases q with
  | idle => cases h
  | lockW k | parked k =>
      obtain ⟨_, h⟩ := Option.ite_none_right_eq_some.mp h
      obtain ⟨rfl, rfl⟩ := Prod.mk.inj (Option.some.inj h)
      exact hlocal k rfl rfl
  | loop k | loopW k roff | loopD k | empty2 k roff | empty3 k =>
      obtain ⟨rfl, rfl⟩ := Prod.mk.inj (Option.some.inj h)
      split <;> exact hlocal k rfl rfl
  | empty1 k | wait k | unlockW k | someR k =>
      obtain ⟨rfl, rfl⟩ := Prod.mk.inj (Option.some.inj h)
      exact hlocal k rfl rfl
  | someW k roff =>
      obtain ⟨rfl, rfl⟩ := Prod.mk.inj (Option.some.inj h)
      obtain rfl : roff = s.cb.roff := hcons.at_
      have hm := readSome_moves (n := k.len - k.read) hr.wf.woff_lt hr.wf.roff_le
      have hle := hq k rfl
      intro k' heq
      obtain rfl := Option.some.inj heq
      show k.read + (readSome_ _ _ _ _).ret ≤ k.len
      rw [hm.ret]
      have hle : k.read + 0 ≤ k.len := hle
      omega
  | copy k m todo =>
      have hle := hq k rfl
      cases todo <;>
        (obtain ⟨rfl, rfl⟩ := Prod.mk.inj (Option.some.inj h)
         intro k' heq
         obtain rfl := Option.some.inj heq
         exact hle)
  | lockR d roff =>
      obtain ⟨_, h⟩ := Option.ite_none_right_eq_some.mp h
      obtain ⟨rfl, rfl⟩ := Prod.mk.inj (Option.some.inj h)
      cases d <;> exact hq
  | storeR d roff | signalR d =>
      obtain ⟨rfl, rfl⟩ := Prod.mk.inj (Option.some.inj h)
      cases d <;> exact hq
  | unlockR d =>
      obtain ⟨rfl, rfl⟩ := Prod.mk.inj (Option.some.inj h)
      cases d with
      | read k n =>
          have hle : k.read + n ≤ k.len := hq k rfl
          dsimp only
          split <;>
            (intro k' heq
             obtain rfl := Option.some.inj heq
             exact hle)
      | dispose n => exact nofun
  | closeLock =>
      obtain ⟨_, h⟩ := Option.ite_none_right_eq_some.mp h
      obtain ⟨rfl, rfl⟩ := Prod.mk.inj (Option.some.inj h)
      exact nofun
  | close =>
      obtain ⟨rfl, rfl⟩ := Prod.mk.inj (Option.some.inj h)
      split <;> exact nofun
  | _ =>
      obtain ⟨rfl, rfl⟩ := Prod.mk.inj (Option.some.inj h)
      exact nofun

def UPc.AtMost : UPc α → Prop
  | .read _ q => q.AtMost
  | .readPos _ k => k.read ≤ k.len
  | _ => True

theorem ugo_atMost {s s' : SlBuffer α} {f : FPc α} {u u' : UPc α} (hx : SeekInv s f u)
    (hc : CircInv c s f u) (hu : u.AtMost) (h : ugo s u = some (s', u')) : u'.AtMost := by
  cases u with
  | read tell₀ q =>
      rcases ugo_read h with ⟨k, rfl, -, rfl⟩ | ⟨-, cbuf, q', hq, -, rfl⟩
      · exact hu k rfl
      · exact cgo_atMost (hc.ring (hx.not_reset3 nofun)) hc.cons hu hq
  | closeRead off whence q =>
      rcases ugo_closeRead h with ⟨code, -, -, rfl⟩ | ⟨-, cbuf, q', -, -, rfl⟩ <;> trivial
  | endClose q =>
      rcases ugo_endClose h with ⟨code, -, -, rfl⟩ | ⟨-, cbuf, q', -, -, rfl⟩ <;> trivial
  | seekLock off whence | parked off whence | endLock | join =>
      obtain ⟨_, h⟩ := Option.ite_none_right_eq_some.mp h
      obtain ⟨rfl, rfl⟩ := Prod.mk.inj (Option.some.inj h)
      trivial
  | idle | innerSeek off whence | destroyed => cases h
  | testStarted off whence | testReq off whence | testResult off whence found =>
      obtain ⟨rfl, rfl⟩ := Prod.mk.inj (Option.some.inj h)
      split <;> trivial
  | _ =>
      obtain ⟨rfl, rfl⟩ := Prod.mk.inj (Option.some.inj h)
      trivial

theorem ustep_atMost {a : UAct α} {s s' : SlBuffer α} {f : FPc α} {u u' : UPc α}
    (hx : SeekInv s f u) (hc : CircInv c s f u) (hu : u.AtMost) (h : ustep a s u = some (s', u')) :
    u'.AtMost := by
  cases ustep_cases h with
  | go h => exact ugo_atMost hx hc hu h
  | call r =>
      cases r with
      | read buf len =>
          intro k hk
          obtain rfl := Option.some.inj hk
          exact Nat.zero_le _
      | seek off whence => trivial
      | destroy => trivial
  | seekRet off whence result dest => trivial
  | spurious hq =>
      cases cstep_cases hq with
      | spurious hparked => exact hu
  | wake hparked => trivial

theorem atMost_of_reach {ok : Stream α → BAct α → Prop} {x : Stream α}
    (h : (buffered α c step).Reach ok x) : x.u.AtMost := by
  refine h.invariant (I := fun x => x.u.AtMost) (fun x hx => ?_) (fun x a x' hr hi _ hs => ?_)
  · obtain ⟨env, others, s, -, -, rfl⟩ := hx
    trivial
  · rcases streamStep_cases hs with ⟨b, -, -, hu⟩ | ⟨b, -, hb, -⟩
    · rw [hu]; exact hi
    · exact ustep_atMost (seekInv_of_reach hr) (circInv_of_reach hr) hi hb

/-! ## The content -/

/-- The event without the epochs. -/
def Event.content : Event (β × Nat) → ContentEvent β
  | .read _ len bytes _ tell _ => .read len (bytes.map Prod.fst) tell
  | .seek off _ code _ tell _ => .seek off code tell

/-- The stream against a position in the content. -/
structure Follows (events : List (Event (β × Nat))) (p : Position β) : Prop where
  trace : p.trace = events.map Event.content
  pos : (p.pos : Int) = lastTell events

/-- The call of an event, with what it decided. -/
def Event.call : Event α → ContentCall
  | .read _ len bytes _ _ _ => .read len bytes.length
  | .seek off _ code _ _ _ => .seek off code

theorem Follows.returns {D : List β} {s : SlBuffer (β × Nat)} {f : FPc (β × Nat)}
    {u : UPc (β × Nat)} {p : Position β} {e : Event (β × Nat)} (hp : Follows s.trace p)
    (hx : SeekInv s f u) (hc : CircInv c s f u) (hi : DataInv D s f u) (hu : u.AtMost)
    (he : CallReturns s u e) :
    ∃ p', (content D).step e.call p = some p' ∧ Follows (s.trace ++ [e]) p' := by
  have hevents : ∀ a e', p.trace ++ [e'] = a → e' = e.content →
      a = (s.trace ++ [e]).map Event.content := by
    rintro a e' rfl rfl
    rw [List.map_append, hp.trace]
    rfl
  cases he with
  | read tell₀ k =>
      obtain ⟨hpos, hbytes, -⟩ := readPos_data hx hc hi
      obtain ⟨htell, -, -⟩ := hi.pos
      have hat : (p.pos : Int) = s.pos := hp.pos.trans (hi.tell fun _ _ _ h => by cases h).symm
      obtain rfl : tell₀ = p.pos := htell.trans hat.symm
      rw [Int.toNat_natCast, ByteMem.length_read] at hbytes
      have hlen := congrArg List.length hbytes
      rw [List.length_map, ByteMem.length_read, List.length_take, List.length_drop] at hlen
      rw [Event.call, ByteMem.length_read]
      refine ⟨_, content_read hu (by omega), hevents _ _ rfl ?_, ?_⟩
      · rw [Event.content, hbytes, ← hat]
        rfl
      · rw [lastTell_append, ← hp.pos, Event.tell, ByteMem.length_read]
        rfl
  | sought off whence found =>
      obtain ⟨hpos, hbase, -⟩ := hi.pos
      have hoff : 0 ≤ off := by omega
      refine ⟨_, content_seek hoff, hevents _ _ rfl ?_, ?_⟩
      · rw [Event.content, hpos]
      · rw [lastTell_append, Event.tell, if_pos rfl]
        exact Int.toNat_of_nonneg hoff
  | failed off whence found =>
      have hne : s.seekResult ≠ 0 := hx.uat
      have hat : (p.pos : Int) = s.pos := hp.pos.trans (hi.tell fun _ _ _ h => by cases h).symm
      refine ⟨_, content_refused hne, hevents _ _ rfl ?_, ?_⟩
      · rw [Event.content, hat]
      · rw [lastTell_append, Event.tell, if_neg hne]
        exact hp.pos

/-- A refinement of the content, when the calls that return are of a kind. -/
theorem follows_of_reach {D : List β} {ok : Stream (β × Nat) → BAct (β × Nat) → Prop}
    {okC : Position β → ContentCall → Prop} (hok : ∀ x a, ok x a → InnerOk D x a)
    (hret : ∀ x e (p : Position β), (buffered (β × Nat) c step).Reach ok x → CallReturns x.s x.u e →
      Follows x.s.trace p → okC p e.call)
    {x : Stream (β × Nat)} (h : (buffered (β × Nat) c step).Reach ok x) :
    ∃ p, (content D).Reach okC p ∧ Follows x.s.trace p := by
  refine h.simulate (R := fun x p => Follows x.s.trace p) (fun x hx => ?_)
    (fun x a x' p hr hp ha hs => ?_)
  · obtain ⟨env, others, s, hs, -, rfl⟩ := hx
    obtain ⟨cb, -, -, rfl⟩ := slBufferCreate2_eq hs
    exact ⟨⟨0, []⟩, rfl, rfl, rfl⟩
  · rcases streamStep_cases hs with ⟨b, -, hb, -⟩ | ⟨b, -, hb, -⟩
    · refine ⟨p, .refl, ?_⟩
      rw [(fstep_frame hb).trace]
      exact hp
    · rcases ustep_trace hb with htrace | ⟨e, htrace, he⟩
      · exact ⟨p, .refl, by rw [htrace]; exact hp⟩
      · obtain ⟨p', hstep, hp'⟩ := hp.returns (seekInv_of_reach hr) (circInv_of_reach hr)
          (dataInv_of_reach hok hr) (atMost_of_reach hr) he
        exact ⟨p', .single (hret x e p hr he hp) hstep, by rw [htrace]; exact hp'⟩

/-- The stream is the content of its inner stream, read and sought. -/
theorem content_of_reach {D : List β} {x : Stream (β × Nat)}
    (h : (buffered (β × Nat) c step).Reach (InnerOk D) x) :
    ∃ p, (content D).Reach Lts.Any p ∧ Follows x.s.trace p :=
  follows_of_reach (fun _ _ h => h) (fun _ _ _ _ _ _ => trivial) h

/-! ## The position of the inner stream -/

/-- The filler's own steps leave the inner stream. -/
theorem fgo_inner {s s' : SlBuffer α} {f f' : FPc α} (h : fgo s f = some (s', f')) :
    s'.inner = s.inner := by
  cases f with
  | startLock | seekLock | endLock | parked =>
      obtain ⟨_, h⟩ := Option.ite_none_right_eq_some.mp h
      obtain ⟨rfl, rfl⟩ := Prod.mk.inj (Option.some.inj h)
      rfl
  | loopQ =>
      rcases fgo_loopQ h with ⟨-, rfl, rfl⟩ | ⟨-, rfl, rfl⟩ <;> rfl
  | write p =>
      obtain ⟨k, written, -, rfl, rfl⟩ | ⟨-, cbuf, p', -, rfl, rfl⟩ := fgo_write h <;> rfl
  | closeWrite p =>
      obtain ⟨code, -, rfl, rfl⟩ | ⟨-, cbuf, p', -, rfl, rfl⟩ := fgo_closeWrite h <;> rfl
  | innerSeek off whence | exited => cases h
  | _ =>
      obtain ⟨rfl, rfl⟩ := Prod.mk.inj (Option.some.inj h)
      rfl

theorem ugo_inner {s s' : SlBuffer α} {u u' : UPc α} (h : ugo s u = some (s', u')) :
    s'.inner = s.inner ∧ s'.epoch = s.epoch := by
  cases u with
  | read tell₀ q =>
      rcases ugo_read h with ⟨k, -, rfl, -⟩ | ⟨-, cbuf, q', -, rfl, -⟩
      · split <;> exact ⟨rfl, rfl⟩
      · exact ⟨rfl, rfl⟩
  | closeRead off whence q =>
      rcases ugo_closeRead h with ⟨code, -, rfl, -⟩ | ⟨-, cbuf, q', -, rfl, -⟩ <;> exact ⟨rfl, rfl⟩
  | endClose q =>
      rcases ugo_endClose h with ⟨code, -, rfl, -⟩ | ⟨-, cbuf, q', -, rfl, -⟩ <;> exact ⟨rfl, rfl⟩
  | seekLock off whence | parked off whence | endLock | join =>
      obtain ⟨_, h⟩ := Option.ite_none_right_eq_some.mp h
      obtain ⟨rfl, rfl⟩ := Prod.mk.inj (Option.some.inj h)
      exact ⟨rfl, rfl⟩
  | idle | innerSeek off whence | destroyed => cases h
  | _ =>
      obtain ⟨rfl, rfl⟩ := Prod.mk.inj (Option.some.inj h)
      exact ⟨rfl, rfl⟩

/-! ## Reading ahead -/

/-- The size of the region that an inner read is to fill. -/
def PPc.asked : PPc α → Nat
  | .writer _ _ _ _ (r :: _) => r.length
  | _ => 0

def FPc.asked : FPc α → Nat
  | .write p => p.asked
  | _ => 0

/-- What is in flight and what is asked for fit the free part. -/
theorem inflight_le {s : Shared α} {p : PPc α} (hp : ProdOk s p) :
    p.inflight.length + p.asked ≤ s.cb.free := by
  have hat := hp.at_
  cases p with
  | copy k b m todo =>
      obtain ⟨-, -, hfree, -⟩ := hat
      simpa [PPc.inflight, PPc.asked] using hfree
  | writer k woff total got todo =>
      obtain ⟨-, hlen, -, n, ht, hfree⟩ := hat
      cases ht with
      | nil => simp only [PPc.inflight, PPc.asked]; omega
      | cons hfit hrest => simp only [PPc.inflight, PPc.asked]; omega
  | lockW k woff n got | storeW k woff n got =>
      obtain ⟨-, hfree, hlen, -⟩ := hat
      simp only [PPc.inflight, PPc.asked]
      omega
  | _ => exact Nat.zero_le _

/-- Outside a call of the user, the inner stream and the user's offset. -/
theorem inner_ahead_le {D : List β} {x : Stream (β × Nat)}
    (h : (buffered (β × Nat) c step).Reach (InnerOk D) x) (hidle : x.u = .idle) :
    x.s.pos ≤ x.s.inner ∧ x.s.inner + x.f.asked ≤ x.s.pos + c := by
  have hx := seekInv_of_reach h
  have hc := circInv_of_reach h
  have hi := dataInv_of_reach (fun _ _ h => h) h
  obtain ⟨-, -, ha⟩ := hx.idle (by rw [hidle]; rfl)
  have hring := hc.ring (by rintro hf; rw [hf] at ha; cases ha)
  have hfetched := hi.fetched
  rw [FPc.stale_eq ha] at hfetched
  have hinner := hfetched.inner
  have hpos := hi.pos
  rw [hidle] at hpos
  have hpos : x.s.pos = x.s.base + x.s.cbuf.released.length := hpos
  have hfree : x.f.inflight.length + x.f.asked ≤ x.s.cbuf.cb.free := by
    have hle := inflight_le hc.prod
    cases hf : x.f with
    | write p =>
        rw [hf] at hle
        exact hle
    | _ => exact Nat.zero_le _
  have hproduced := congrArg List.length hring.history
  rw [List.length_append, length_unread] at hproduced
  rw [List.length_append] at hinner
  have hsize := hring.size
  have hlt := ByteRing.used_lt hring.wf.woff_lt hring.wf.roff_le
  rw [← circbufGetLength_eq] at hlt
  rw [Circbuf.free] at hfree
  omega

end Streamlike
