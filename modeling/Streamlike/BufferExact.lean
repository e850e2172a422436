import Streamlike.BufferContent
import Streamlike.BufferLive
import Streamlike.BufferShort

/-!
# The buffered stream gives all there is

`content_of_reach` allows a read to come up short anywhere. Two things make
it come up short before the end of the content: a failed inner seek, after
which reading stays closed, and the two loads that `ClosesBetween` is
about. In the runs without them a read gives all that it is asked for or
all that remains (`buffered_exact`).

The filler closes writing only after an inner read that came up short, or
because reading is closed (`FPc.EndAt`); and while the user reads, reading
is open.
-/

namespace Streamlike

variable {α β : Type} {c step : Nat}

/-! ## The filler at the end of the content -/

/-- The inner stream has given all, or reading is closed. -/
def AtEnd (D : List β) (s : SlBuffer (β × Nat)) : Prop :=
  D.length ≤ s.inner ∨ s.cbuf.cb.rdone = true

/-- Where the filler has seen a short write, and inside the write. -/
def FPc.EndAt (D : List β) (s : SlBuffer (β × Nat)) : FPc (β × Nat) → Prop
  | .write p =>
      (∀ k, p.call = some k → k.eof = true → D.length ≤ s.inner)
        ∧ ∀ k n, p = .ret k n → n < s.stepSize → AtEnd D s
  | .endLock | .closeWrite _ | .testRead | .wait | .parked => AtEnd D s
  | _ => True

/-- A step of `circbuf_write2` keeps the flag of the writer, and the call
returns short for that flag or because reading is closed. -/
theorem pgo_short {len : Nat} {s s' : Shared α} {p p' : PPc α} (hw : p.Write2 len)
    (h : pgo s p = some (s', p')) (hret : ∀ k n, p ≠ .ret k n) :
    ∃ k k', p.call = some k ∧ p'.call = some k' ∧ k'.eof = k.eof
      ∧ ∀ k₁ n, p' = .ret k₁ n → n < len → k.eof = true ∨ s.cb.rdone = true := by
  obtain ⟨⟨k, hk, hcall⟩, hn⟩ := hw
  refine ⟨k, ?_⟩
  cases p with
  | copy k b m todo => exact absurd rfl (hn k b m todo)
  | ret k n => exact absurd rfl (hret k n)
  | lockR k | parked k | lockW k woff n got =>
      obtain rfl := Option.some.inj hk
      obtain ⟨_, h⟩ := Option.ite_none_right_eq_some.mp h
      obtain ⟨rfl, rfl⟩ := Prod.mk.inj (Option.some.inj h)
      exact ⟨_, rfl, rfl, rfl, nofun⟩
  | entry k =>
      obtain rfl := Option.some.inj hk
      obtain ⟨rfl, rfl⟩ := Prod.mk.inj (Option.some.inj h)
      split
      · next hd => exact ⟨_, rfl, rfl, rfl, fun _ _ _ _ => .inr hd⟩
      · exact ⟨_, rfl, rfl, rfl, nofun⟩
  | loop k =>
      obtain rfl := Option.some.inj hk
      obtain ⟨rfl, rfl⟩ := Prod.mk.inj (Option.some.inj h)
      split
      · split
        · next hend =>
          rw [Bool.or_eq_true] at hend
          exact ⟨_, rfl, rfl, rfl, fun _ _ _ _ => hend.symm⟩
        · exact ⟨_, rfl, rfl, rfl, nofun⟩
      · next hfull =>
        refine ⟨_, rfl, rfl, rfl, fun _ n heq hlt => ?_⟩
        obtain ⟨-, rfl⟩ := PPc.ret.inj heq
        rw [← hcall.2.2] at hlt
        exact absurd hlt hfull
  | full2 k woff | full3 k | full4 k | full5 k | check k =>
      obtain rfl := Option.some.inj hk
      obtain ⟨rfl, rfl⟩ := Prod.mk.inj (Option.some.inj h)
      split <;> exact ⟨_, rfl, rfl, rfl, nofun⟩
  | unlockW k n =>
      obtain rfl := Option.some.inj hk
      obtain ⟨rfl, rfl⟩ := Prod.mk.inj (Option.some.inj h)
      rw [if_pos hcall.2.1]
      exact ⟨_, rfl, rfl, rfl, nofun⟩
  | someR k woff =>
      obtain rfl := Option.some.inj hk
      obtain ⟨rfl, rfl⟩ := Prod.mk.inj (Option.some.inj h)
      rw [hcall.1]
      exact ⟨_, rfl, rfl, rfl, nofun⟩
  | writer k woff total got todo =>
      obtain rfl := Option.some.inj hk
      cases todo with
      | nil =>
          obtain ⟨rfl, rfl⟩ := Prod.mk.inj (Option.some.inj h)
          exact ⟨_, rfl, rfl, rfl, nofun⟩
      | cons r todo => cases h
  | full1 k | wait k | unlockR k | someW k | storeW k woff n got | signalW k n =>
      obtain rfl := Option.some.inj hk
      obtain ⟨rfl, rfl⟩ := Prod.mk.inj (Option.some.inj h)
      exact ⟨_, rfl, rfl, rfl, nofun⟩
  | _ => cases hk

section Filler

variable {D : List β} {s s' : SlBuffer (β × Nat)} {f f' : FPc (β × Nat)} {u : UPc (β × Nat)}

/-- The filler enters `circbuf_write2`. -/
theorem endAt_startWrite (s : SlBuffer (β × Nat)) : (FPc.startWrite s).EndAt D s := by
  refine ⟨fun k hk heof => ?_, nofun⟩
  obtain rfl := Option.some.inj hk
  cases heof

theorem fgo_endAt (hc : CircInv c s f u) (hi : f.EndAt D s) (h : fgo s f = some (s', f')) :
    f'.EndAt D s' := by
  cases f with
  | startLock | seekLock =>
      obtain ⟨_, h⟩ := Option.ite_none_right_eq_some.mp h
      obtain ⟨rfl, rfl⟩ := Prod.mk.inj (Option.some.inj h)
      trivial
  | endLock | parked =>
      obtain ⟨_, h⟩ := Option.ite_none_right_eq_some.mp h
      obtain ⟨rfl, rfl⟩ := Prod.mk.inj (Option.some.inj h)
      exact hi
  | loopR | testResult =>
      obtain ⟨rfl, rfl⟩ := Prod.mk.inj (Option.some.inj h)
      split <;> trivial
  | loopQ =>
      rcases fgo_loopQ h with ⟨-, rfl, rfl⟩ | ⟨-, rfl, rfl⟩ <;> trivial
  | ifReq =>
      obtain ⟨rfl, rfl⟩ := Prod.mk.inj (Option.some.inj h)
      split
      · trivial
      · exact endAt_startWrite s
  | seekUnlock =>
      obtain ⟨rfl, rfl⟩ := Prod.mk.inj (Option.some.inj h)
      exact endAt_startWrite s
  | write p =>
      obtain ⟨heof, hshort⟩ := hi
      rcases fgo_write h with ⟨k, written, rfl, rfl, rfl⟩ | ⟨hret, cbuf, p', hp, rfl, rfl⟩
      · split
        · next hlt => exact hshort k written rfl hlt
        · trivial
      · obtain ⟨k, k', hk, hk', hsame, hends⟩ := pgo_short hc.fcall hp hret
        have hring := hc.ring fun h => by cases h
        have hrdone := (pstep_ok (a := .go) hring hc.prod hp).frame.rdone
        refine ⟨fun k₁ hk₁ h₁ => heof k hk ?_, fun k₁ n hr hlt => ?_⟩
        · obtain rfl := Option.some.inj (hk'.symm.trans hk₁)
          exact hsame ▸ h₁
        · exact (hends k₁ n hr hlt).imp (heof k hk) hrdone.trans
  | closeWrite p =>
      rcases fgo_closeWrite h with ⟨code, rfl, rfl, rfl⟩ | ⟨-, cbuf, p', hp, rfl, rfl⟩
      · exact hi
      · have hring := hc.ring fun h => by cases h
        have hrdone := (pstep_ok (a := .go) hring hc.prod hp).frame.rdone
        exact hi.imp_right hrdone.trans
  | testRead =>
      obtain ⟨rfl, rfl⟩ := Prod.mk.inj (Option.some.inj h)
      split
      · trivial
      · exact hi
  | wait =>
      obtain ⟨rfl, rfl⟩ := Prod.mk.inj (Option.some.inj h)
      exact hi
  | innerSeek off whence | exited => cases h
  | _ =>
      obtain ⟨rfl, rfl⟩ := Prod.mk.inj (Option.some.inj h)
      trivial

theorem fstep_endAt {a : FAct (β × Nat)} (hc : CircInv c s f u) (hi : f.EndAt D s)
    (hok : InnerOk D ⟨s, f, u⟩ (.filler a)) (h : fstep a s f = some (s', f')) :
    f'.EndAt D s' := by
  cases fstep_cases h with
  | go h => exact fgo_endAt hc hi h
  | store hp =>
      cases pstep_cases hp with
      | store b hlt => exact ⟨hi.1, nofun⟩
  | spurious hp =>
      cases pstep_cases hp with
      | spurious hparked => exact ⟨hi.1, nofun⟩
  | readRet hp =>
      cases pstep_cases hp with
      | wret hn =>
          obtain ⟨hcount, -⟩ := hok _ _ _ _ _ _ rfl
          have hcount : _ = min _ (D.length - s.inner) := hcount
          refine ⟨fun k hk heof => ?_, fun k n hr => ?_⟩
          · split at hk
            · next hlt =>
              show D.length ≤ s.inner + _
              omega
            · obtain rfl := Option.some.inj hk
              exact (hi.1 _ rfl heof).trans (Nat.le_add_right _ _)
          · split at hr <;> cases hr
  | seekRet => trivial
  | wake hparked => exact hi

end Filler

/-- The user leaves the filler where it is. -/
theorem FPc.EndAt.user {D : List β} {s s' : SlBuffer (β × Nat)} {f : FPc (β × Nat)}
    (h : f.EndAt D s) (hinner : s'.inner = s.inner) (hstep : s'.stepSize = s.stepSize)
    (hrdone : s.cbuf.cb.rdone = true → s'.cbuf.cb.rdone = true) : f.EndAt D s' := by
  have hend : AtEnd D s → AtEnd D s' := fun h => h.imp (hinner ▸ ·) hrdone
  cases f with
  | write p =>
      exact ⟨fun k hk heof => hinner ▸ h.1 k hk heof,
        fun k n hr hlt => hend (h.2 k n hr (hstep ▸ hlt))⟩
  | endLock | closeWrite p | testRead | wait | parked => exact hend h
  | _ => trivial

/-! ## The results of the seeks -/

/-- A step of the user's program stores a result at one point, and gets none. -/
theorem ugo_result {s s' : SlBuffer α} {u u' : UPc α} (h : ugo s u = some (s', u')) :
    (s'.seekResult = s.seekResult ∨ ∃ off whence, u = .storeResult off whence s'.seekResult)
      ∧ ∀ off whence result, u' ≠ .storeResult off whence result := by
  cases u with
  | read tell₀ q =>
      rcases ugo_read h with ⟨k, -, rfl, rfl⟩ | ⟨-, cbuf, q', -, rfl, rfl⟩
      · split <;> exact ⟨.inl rfl, nofun⟩
      · exact ⟨.inl rfl, nofun⟩
  | closeRead off whence q =>
      rcases ugo_closeRead h with ⟨code, -, rfl, rfl⟩ | ⟨-, cbuf, q', -, rfl, rfl⟩ <;>
        exact ⟨.inl rfl, nofun⟩
  | endClose q =>
      rcases ugo_endClose h with ⟨code, -, rfl, rfl⟩ | ⟨-, cbuf, q', -, rfl, rfl⟩ <;>
        exact ⟨.inl rfl, nofun⟩
  | seekLock off whence | parked off whence | endLock | join =>
      obtain ⟨_, h⟩ := Option.ite_none_right_eq_some.mp h
      obtain ⟨rfl, rfl⟩ := Prod.mk.inj (Option.some.inj h)
      exact ⟨.inl rfl, nofun⟩
  | idle | innerSeek off whence | destroyed => cases h
  | testStarted off whence | testReq off whence | testResult off whence found =>
      obtain ⟨rfl, rfl⟩ := Prod.mk.inj (Option.some.inj h)
      split <;> exact ⟨.inl rfl, nofun⟩
  | storeResult off whence result =>
      obtain ⟨rfl, rfl⟩ := Prod.mk.inj (Option.some.inj h)
      exact ⟨.inr ⟨off, whence, rfl⟩, nofun⟩
  | _ =>
      obtain ⟨rfl, rfl⟩ := Prod.mk.inj (Option.some.inj h)
      exact ⟨.inl rfl, nofun⟩

/-- A step to the end of a read call. -/
theorem ustep_readPos {a : UAct α} {s s' : SlBuffer α} {u : UPc α} {tell₀ : Int} {k : RCall α}
    (h : ustep a s u = some (s', .readPos tell₀ k)) :
    u = .read tell₀ (.ret k) ∧ s'.pos = s.pos := by
  generalize hu' : UPc.readPos tell₀ k = u' at h
  cases ustep_cases h with
  | go h =>
      subst hu'
      cases u with
      | read tell₀ q =>
          rcases ugo_read h with ⟨k', rfl, rfl, heq⟩ | ⟨-, cbuf, q', -, -, heq⟩
          · obtain ⟨rfl, rfl⟩ := UPc.readPos.inj heq
            split <;> exact ⟨rfl, rfl⟩
          · cases heq
      | closeRead off whence q =>
          rcases ugo_closeRead h with ⟨code, -, -, heq⟩ | ⟨-, cbuf, q', -, -, heq⟩ <;> cases heq
      | endClose q =>
          rcases ugo_endClose h with ⟨code, -, -, heq⟩ | ⟨-, cbuf, q', -, -, heq⟩ <;> cases heq
      | seekLock off whence | parked off whence | endLock | join =>
          obtain ⟨_, h⟩ := Option.ite_none_right_eq_some.mp h
          cases h
      | testStarted off whence | testReq off whence | testResult off whence found =>
          obtain ⟨-, heq⟩ := Prod.mk.inj (Option.some.inj h)
          split at heq <;> cases heq
      | _ => cases h
  | call r => cases r <;> cases hu'
  | seekRet | spurious | wake => cases hu'

/-- Every inner seek so far has succeeded. -/
structure AllSought (s : SlBuffer α) (u : UPc α) : Prop where
  stored : s.seekResult = 0
  user : ∀ off whence result, u = .storeResult off whence result → result = 0

theorem ustep_sought {x : Stream α} {a : UAct α} {s s' : SlBuffer α} {u u' : UPc α}
    (hi : AllSought s u) (hok : SeeksSucceed x (.user a)) (h : ustep a s u = some (s', u')) :
    AllSought s' u' := by
  cases ustep_cases h with
  | go h =>
      obtain ⟨hresult, hne⟩ := ugo_result h
      refine ⟨?_, fun off whence result hu => absurd hu (hne off whence result)⟩
      rcases hresult with hsame | ⟨off, whence, rfl⟩
      · exact hsame.trans hi.stored
      · exact hi.user off whence _ rfl
  | call r =>
      refine ⟨hi.stored, fun off whence result hu => ?_⟩
      cases r <;> cases hu
  | seekRet off whence result dest =>
      refine ⟨hi.stored, fun off' whence' result' hu => ?_⟩
      obtain ⟨-, -, rfl⟩ := UPc.storeResult.inj hu
      exact hok
  | spurious | wake => exact ⟨hi.stored, nofun⟩

theorem allSought_of_reach {x : Stream α} (h : (buffered α c step).Reach SeeksSucceed x) :
    AllSought x.s x.u := by
  refine h.invariant (I := fun x => AllSought x.s x.u) (fun x hx => ?_)
    (fun x a x' hr hi ha hs => ?_)
  · obtain ⟨env, others, s, hs, -, rfl⟩ := hx
    obtain ⟨cb, -, -, rfl⟩ := slBufferCreate2_eq hs
    exact ⟨rfl, nofun⟩
  · rcases streamStep_cases hs with ⟨b, -, hb, hu⟩ | ⟨b, rfl, hb, -⟩
    · have hlive := liveInv_of_reach (hr.mono fun _ _ => SeeksSucceed.serves)
      have hframe := fstep_frame hb
      refine ⟨?_, by rw [hu]; exact hi.user⟩
      by_cases hf : ∃ result, x.f = .storeResult result
      · obtain ⟨result, hf⟩ := hf
        have hzero := hlive.result (by rw [hf]; rfl)
        rw [hf] at hzero
        exact (hframe.stored result hf).trans hzero
      · exact (hframe.result fun result heq => hf ⟨result, heq⟩).trans hi.stored
    · exact ustep_sought hi ha hb

/-! ## Short reads -/

/-- The inner stream is `D`, every inner seek succeeds, and writing is not
closed between the two loads. -/
def ExactOk (D : List β) (x : Stream (β × Nat)) (a : BAct (β × Nat)) : Prop :=
  InnerOk D x a ∧ SeeksSucceed x a ∧ ¬ x.ClosesBetween a

theorem ustep_endAt {D : List β} {a : UAct (β × Nat)} {s s' : SlBuffer (β × Nat)}
    {f : FPc (β × Nat)} {u u' : UPc (β × Nat)} (hx : SeekInv s f u) (hi : f.EndAt D s)
    (h : ustep a s u = some (s', u')) : f.EndAt D s' := by
  have hcirc : s'.stepSize = s.stepSize
      ∧ (s.cbuf.cb.rdone = true → s'.cbuf.cb.rdone = true) := by
    cases ustep_circ h with
    | circ hb hlen hu hcall => exact ⟨hlen, cstep_rdone hb⟩
    | move hs hlen ho ho' hstart hcall => exact ⟨hlen, fun hd => by rw [hs]; exact hd⟩
  obtain ⟨hstep, hrdone⟩ := hcirc
  cases ustep_cases h with
  | go h => exact hi.user (ugo_inner h).1 hstep hrdone
  | call | spurious | wake => exact hi.user rfl hstep hrdone
  | seekRet off whence result dest =>
      -- the filler has not started
      have hstarted : s.fillerStarted = false := hx.uat.2
      cases f with
      | startLock | start => trivial
      | _ =>
          rw [hx.started.mpr rfl] at hstarted
          cases hstarted

theorem endAt_of_reach {D : List β} {x : Stream (β × Nat)}
    (h : (buffered (β × Nat) c step).Reach (InnerOk D) x) : x.f.EndAt D x.s := by
  refine h.invariant (I := fun x => x.f.EndAt D x.s) (fun x hx => ?_) (fun x a x' hr hi ha hs => ?_)
  · obtain ⟨env, others, s, -, -, rfl⟩ := hx
    trivial
  · rcases streamStep_cases hs with ⟨b, rfl, hb, -⟩ | ⟨b, rfl, hb, hf⟩
    · exact fstep_endAt (circInv_of_reach hr) hi ha hb
    · rw [hf]
      exact ustep_endAt (seekInv_of_reach hr) hi hb

section Runs

variable {D : List β} {x : Stream (β × Nat)}

/-- While reading is open, the end of what has been handed over is the end
of the content. -/
theorem allRead_atEnd (h : (buffered (β × Nat) c step).Reach (ExactOk D) x) (hread : x.AllRead)
    (hu : x.u.awaits = false) (hopen : x.u.closedR = false) :
    D.length ≤ x.s.base + x.s.cbuf.released.length := by
  obtain ⟨hwdone, hreleased, hinflight⟩ := hread
  have hinner := h.mono fun _ _ ha => ha.1
  have hlive := liveInv_of_reach (h.mono fun _ _ ha => ha.2.1.serves)
  have hend := endAt_of_reach hinner
  obtain ⟨-, -, ha⟩ := (seekInv_of_reach h).idle hu
  have hrdone : x.s.cbuf.cb.rdone ≠ true := fun hd => by
    rw [(hlive.closed hd).1] at hopen
    cases hopen
  have hat : D.length ≤ x.s.inner := by
    have hclosed : x.f.ends = true := by
      refine Bool.of_not_eq_false fun hf => ?_
      exact hrdone ((endInv_of_reach h).closed hf hwdone)
    cases hf : x.f with
    | endLock | closeWrite p | testRead | wait | parked =>
        rw [hf] at hend
        exact hend.resolve_right hrdone
    | reset1 => rw [hf] at ha; cases ha
    | exited =>
        rw [(hlive.exit (by rw [hf]; rfl)).1] at hopen
        cases hopen
    | _ => rw [hf] at hclosed; cases hclosed
  have hfetched := (dataInv_of_reach (fun _ _ ha => ha) hinner).fetched
  rw [FPc.stale_eq ha] at hfetched
  have hnone : x.f.inflight = [] := by
    cases hf : x.f with
    | write p => rw [hf] at hinflight; exact hinflight
    | _ => rfl
  rw [hreleased]
  have hpos := hfetched.inner
  rw [hnone, List.append_nil] at hpos
  omega

/-- A buffer that is drained, with writing closed. -/
theorem allRead_of_drained {ok : Stream (β × Nat) → BAct (β × Nat) → Prop}
    (h : (buffered (β × Nat) c step).Reach ok x) (hu : ∀ off whence, x.u ≠ .parked off whence)
    (hend : x.s.cbuf.cb.wdone = true ∧ circbufGetLength x.s.cbuf.cb = 0) : x.AllRead := by
  have hc := circInv_of_reach h
  have hring := hc.ring ((seekInv_of_reach h).not_reset3 hu)
  have hnil : x.s.cbuf.cb.unread = [] :=
    List.eq_nil_of_length_eq_zero (by rw [length_unread, hend.2])
  refine ⟨hend.1, ?_, (endInv_of_reach h).inflight hc hend.1⟩
  rw [hring.history, hnil, List.append_nil]

/-- A read that came up short has come to the end of the content. -/
theorem readPos_atEnd (h : (buffered (β × Nat) c step).Reach (ExactOk D) x) :
    ∀ tell₀ k, x.u = .readPos tell₀ k → k.read < k.len → (D.length : Int) ≤ x.s.pos + k.read := by
  refine h.invariant (I := fun x => ∀ tell₀ k, x.u = .readPos tell₀ k → k.read < k.len →
    (D.length : Int) ≤ x.s.pos + k.read) (fun x hx => ?_) (fun x a x' hr hi ha hs => ?_)
  · obtain ⟨env, others, s, -, -, rfl⟩ := hx
    exact nofun
  · rcases streamStep_cases hs with ⟨b, -, hb, hu⟩ | ⟨b, rfl, hb, hf⟩
    · rw [hu, (fstep_frame hb).pos]
      exact hi
    · intro tell₀ k hu' hlt
      rw [hu'] at hb
      obtain ⟨hu, hpos⟩ := ustep_readPos hb
      have hc := circInv_of_reach hr
      have hs := shortOk_of_reach (hr.mono fun _ _ ha => ha.2.2)
      have hdata := (dataInv_of_reach (fun _ _ ha => ha.1) hr).pos
      have hread := allRead_of_drained hr (by rw [hu]; nofun) (by
        rw [hu] at hc hs
        exact hs.drained hc hlt)
      have hend := allRead_atEnd hr hread (by rw [hu]; rfl) (by rw [hu]; rfl)
      rw [hu] at hdata
      obtain ⟨-, len, pre, ⟨k', hk, -, -, rfl⟩, hbase⟩ := hdata
      obtain rfl := Option.some.inj hk
      have hrel := hc.cons.sofar (k.pre ++ k.buf.read 0 k.read) (by rw [hu]; rfl)
      rw [hrel, List.length_append, ByteMem.length_read] at hend
      rw [hpos]
      omega

/-- Every call gives all there is to give. -/
theorem exact_returns (h : (buffered (β × Nat) c step).Reach (ExactOk D) x)
    {e : Event (β × Nat)} {p : Position β} (he : CallReturns x.s x.u e) (hp : Follows x.s.trace p) :
    Exact D p e.call := by
  have hx := seekInv_of_reach h
  have hc := circInv_of_reach h
  have hi := dataInv_of_reach (fun _ _ ha => ha.1) h
  have hatMost := atMost_of_reach h
  have hshort := readPos_atEnd h
  generalize x.u = u at he hx hc hi hatMost hshort
  cases he with
  | read tell₀ k =>
      obtain ⟨hpos, hbytes, -⟩ := readPos_data hx hc hi
      obtain ⟨htell, -, -⟩ := hi.pos
      have hat : (p.pos : Int) = x.s.pos := hp.pos.trans (hi.tell nofun).symm
      obtain rfl : tell₀ = p.pos := htell.trans hat.symm
      have hlen := congrArg List.length hbytes
      rw [List.length_map, ByteMem.length_read, Int.toNat_natCast, List.length_take,
        List.length_drop] at hlen
      have hle : k.read ≤ k.len := hatMost
      have hend := hshort _ k rfl
      show (k.buf.read 0 k.read).length = min k.len (D.length - p.pos)
      rw [ByteMem.length_read]
      omega
  | sought off whence found =>
      obtain ⟨hpos, hbase, -⟩ := hi.pos
      exact iff_of_true rfl (by omega)
  | failed off whence found =>
      have hzero := (allSought_of_reach (h.mono fun _ _ ha => ha.2.1)).stored
      exact absurd hzero hx.uat

theorem exact_of_reach (h : (buffered (β × Nat) c step).Reach (ExactOk D) x) :
    ∃ p, (content D).Reach (Exact D) p ∧ Follows x.s.trace p :=
  follows_of_reach (fun _ _ ha => ha.1) (fun _ _ _ hr he hp => exact_returns hr he hp) h

end Runs

/-- **The buffered stream gives all there is.** In the runs in which every
inner seek succeeds and writing is not closed between the two loads of
`circbuf_read`: each read returns the next bytes of the inner stream, all
that it is asked for or all that remain, each seek succeeds, and end of
file is reported only at or beyond the end. The events are those of the
calls that the user made, with their arguments. -/
theorem buffered_exact (D : List β) (c step : Nat) {x : Stream (β × Nat)}
    (h : (buffered (β × Nat) c step).Reach (ExactOk D) x) :
    ∃ p, (content D).Reach (Exact D) p ∧ p.trace = x.s.trace.map Event.content
      ∧ (x.u = .idle → x.s.pos = p.pos ∧ (x.s.eof = true → D.length ≤ p.pos))
      ∧ ∀ calls, (bufferedCalls (β × Nat) c step).Reach (fun y a => ExactOk D y.1 a) (x, calls) →
        calls.filterMap UCall.asked = x.s.trace.map Event.asked ++ x.u.asked.toList := by
  obtain ⟨p, hp, hfollows⟩ := exact_of_reach h
  have hi := dataInv_of_reach (fun _ _ ha => ha.1) h
  refine ⟨p, hp, hfollows.trace, fun hidle => ?_, fun calls => events_of_calls⟩
  have hat : x.s.pos = p.pos := (hi.tell (by rw [hidle]; nofun)).trans hfollows.pos.symm
  refine ⟨hat, fun heof => ?_⟩
  have hdrained : x.s.cbuf.cb.wdone = true ∧ circbufGetLength x.s.cbuf.cb = 0 := by
    rcases eofOk_of_reach (h.mono fun _ _ ha => ha.2.2) heof with hend | ⟨hsome, -⟩
    · exact hend
    · rw [hidle] at hsome; cases hsome
  have hread := allRead_of_drained h (by rw [hidle]; nofun) hdrained
  have hend := allRead_atEnd h hread (by rw [hidle]; rfl) (by rw [hidle]; rfl)
  have hpos := hi.pos
  rw [hidle] at hpos
  have hpos : x.s.pos = x.s.base + x.s.cbuf.released.length := hpos
  omega

/-- The only byte of `[10]`, and a read after it. -/
theorem buffered_exact_run :
    ∃ p : Position Nat, (content [10]).Reach (Exact [10]) p
      ∧ p.trace = [.read 1 [10] 1, .read 1 [] 1] := by
  let M := buffered (Nat × Nat) 1 1
  let fetch : List (BAct (Nat × Nat)) := List.replicate 15 (.filler .go)
    ++ [.filler (.store 0 (10, 0))]
  let reads : List (BAct (Nat × Nat)) := .user (.call (.read (fun _ => (0, 0)) 1))
    :: List.replicate 17 (.user .go)
  let last : List (BAct (Nat × Nat)) := .user (.call (.read (fun _ => (0, 0)) 1))
    :: List.replicate 5 (.user .go)
  have hfill : ∀ (acts : List (BAct (Nat × Nat))) (x y : Stream (Nat × Nat)),
      (∀ a ∈ acts, a = .filler .go ∨ a = .filler (.store 0 (10, 0))) →
        M.Reach (ExactOk [10]) x → x.u = .idle → M.run acts x = some y →
          M.Reach (ExactOk [10]) y := by
    intro acts x y hacts hx hidle hrun
    refine .runOn (P := fun x => x.u = .idle) (fun a ha s hs => ?_) (fun a ha s s' hs h => ?_) hx
      hidle hrun
    · have hopen : ¬ s.ClosesBetween a := fun ⟨_, _, ⟨tell₀, k, hk⟩, _⟩ => by
        rw [hs] at hk
        cases hk
      obtain rfl | rfl := hacts a ha <;> exact ⟨trivial, trivial, hopen⟩
    · rcases streamStep_cases h with ⟨b, -, -, hkeep⟩ | ⟨b, rfl, -, -⟩
      · exact hkeep.trans hs
      · obtain heq | heq := hacts _ ha <;> cases heq
  have huser : ∀ (acts : List (BAct (Nat × Nat))) (x y : Stream (Nat × Nat)),
      (∀ a ∈ acts, a = .user (.call (.read (fun _ => (0, 0)) 1)) ∨ a = .user .go) →
        M.Reach (ExactOk [10]) x → M.run acts x = some y → M.Reach (ExactOk [10]) y := by
    intro acts x y hacts hx hrun
    refine .run (fun a ha s => ?_) hx hrun
    obtain rfl | rfl := hacts a ha
    all_goals exact ⟨trivial, trivial, fun h => by cases h.1⟩
  have hrun : ∃ x₁ x₂ x₃ x₄ x₅ x₆ x₇ x₈ k₁ woff₁ total₁ got₁ k₂ woff₂ total₂ got₂ r,
      M.run fetch ⟨.fresh ⟨fun _ => (0, 0), 2, 0, 0, false, false⟩ 1, .startLock, .idle⟩ = some x₁
      ∧ (x₁.f = .write (.writer k₁ woff₁ total₁ got₁ [⟨0, 1⟩])
        ∧ x₁.s.inner = 0 ∧ x₁.s.epoch = 0 ∧ x₁.s.cbuf.cb.data.read 0 1 = [(10, 0)]
        ∧ x₁.u = .idle)
      ∧ M.step (.filler (.readRet 1)) x₁ = some x₂ ∧ x₂.u = .idle
      ∧ M.run (List.replicate 5 (.filler .go)) x₂ = some x₃
      ∧ M.run reads x₃ = some x₄ ∧ x₄.u = .idle
      ∧ M.run (List.replicate 15 (.filler .go)) x₄ = some x₅
      ∧ (x₅.f = .write (.writer k₂ woff₂ total₂ got₂ [⟨1, 1⟩, r]) ∧ x₅.s.inner = 1
        ∧ x₅.u = .idle)
      ∧ M.step (.filler (.readRet 0)) x₅ = some x₆ ∧ x₆.u = .idle
      ∧ M.run (List.replicate 14 (.filler .go)) x₆ = some x₇
      ∧ M.run last x₇ = some x₈
      ∧ x₈.s.trace = [.read 0 1 [(10, 0)] 0 1 false, .read 1 1 [] 0 1 true] :=
    ⟨_, _, _, _, _, _, _, _, _, _, _, _, _, _, _, _, _, rfl, ⟨rfl, rfl, rfl, rfl, rfl⟩, rfl, rfl,
      rfl, rfl, rfl, rfl, ⟨rfl, rfl, rfl⟩, rfl, rfl, rfl, rfl, rfl⟩
  obtain ⟨x₁, x₂, x₃, x₄, x₅, x₆, x₇, x₈, k₁, woff₁, total₁, got₁, k₂, woff₂, total₂, got₂, r, h₁,
    ⟨hf₁, hinner₁, hepoch, hbyte, hu₁⟩, h₂, hu₂, h₃, h₄, hu₄, h₅, ⟨hf₅, hinner₅, hu₅⟩, h₆, hu₆, h₇,
    h₈, htrace⟩ := hrun
  have hread₁ : InnerOk [10] x₁ (.filler (.readRet 1)) := by
    intro k woff total got r todo hpc
    rw [hf₁] at hpc
    injection hpc with hpc
    injection hpc with _ _ _ _ hregion
    injection hregion with hr _
    rw [← hr, hinner₁, hepoch, hbyte]
    exact ⟨rfl, rfl⟩
  have hread₂ : InnerOk [10] x₅ (.filler (.readRet 0)) := by
    intro k woff total got r todo hpc
    rw [hf₅] at hpc
    injection hpc with hpc
    injection hpc with _ _ _ _ hregion
    injection hregion with hr _
    rw [← hr, hinner₅]
    exact ⟨rfl, rfl⟩
  have hstart : M.Reach (ExactOk [10]) _ := .init ⟨.ample (0, 0), true, _, rfl, by decide, rfl⟩
  have hr₁ := hfill fetch _ x₁ (by simp [fetch]) hstart rfl h₁
  have hr₂ := hr₁.step ⟨hread₁, trivial, fun h => by cases h.1⟩ h₂
  have hr₃ := hfill _ x₂ x₃ (by simp) hr₂ hu₂ h₃
  have hr₄ := huser reads x₃ x₄ (by simp [reads]) hr₃ h₄
  have hr₅ := hfill _ x₄ x₅ (by simp) hr₄ hu₄ h₅
  have hr₆ := hr₅.step ⟨hread₂, trivial, fun h => by cases h.1⟩ h₆
  have hr₇ := hfill _ x₆ x₇ (by simp) hr₆ hu₆ h₇
  have hr₈ := huser last x₇ x₈ (by simp [last]) hr₇ h₈
  obtain ⟨p, hp, hcontent, -⟩ := buffered_exact [10] 1 1 hr₈
  refine ⟨p, hp, ?_⟩
  rw [hcontent, htrace]
  rfl

end Streamlike
