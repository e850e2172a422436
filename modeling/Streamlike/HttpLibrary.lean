import Mathlib.Data.List.Chain
import Mathlib.Logic.Function.Basic
import Streamlike.Lts

/-!
# Setting up and cleaning up the library

`sl_http_library_init` and `sl_http_library_cleanup`, called by any number
of threads. Both test and set `curl_global_init_done` while they hold
`curl_global_init_mutex`, and call curl between the test and the store, so
curl sees one thread at a time, and the two calls in turn
(`library_in_turn`). What `curl_global_init` returns is dropped, so the flag
says what curl was asked for, not that it succeeded.
-/

namespace Streamlike

inductive LibCall
  | init
  | cleanup
deriving DecidableEq

/-- Inside `sl_http_library_init` or `sl_http_library_cleanup`. -/
inductive LibPc
  | idle
  | lock (c : LibCall)
  | test (c : LibCall)
  -- inside curl_global_init or curl_global_cleanup
  | curl (c : LibCall)
  | store (c : LibCall)
  | unlock (c : LibCall)
deriving DecidableEq

/-- `called` are the calls of curl that have returned, the last one first, and
`up` says whether curl is set up. -/
structure HttpLibrary (ι : Type) where
  curl_global_init_mutex : Option ι
  curl_global_init_done : Bool
  called : List LibCall
  up : Bool
  pc : ι → LibPc

inductive LibAct (ι : Type)
  | call (i : ι) (c : LibCall)
  -- a call of curl_global_init succeeds or not
  | go (i : ι) (ok : Bool)

section Library

variable {ι : Type} [DecidableEq ι]

/-- The value of the flag in which a call goes on to curl. -/
def LibCall.due : LibCall → Bool
  | .init => false
  | .cleanup => true

def HttpLibrary.at_ (s : HttpLibrary ι) (i : ι) (pc : LibPc) : HttpLibrary ι :=
  { s with pc := Function.update s.pc i pc }

def libraryGo (i : ι) (ok : Bool) (s : HttpLibrary ι) : Option (HttpLibrary ι) :=
  match s.pc i with
  | .idle => none
  | .lock c =>
      if s.curl_global_init_mutex = none then
        some ({ s with curl_global_init_mutex := some i }.at_ i (.test c))
      else none
  | .test c =>
      some (s.at_ i (if s.curl_global_init_done = c.due then .curl c else .unlock c))
  | .curl c =>
      some ({ s with called := c :: s.called, up := decide (c = LibCall.init) && ok }.at_ i
        (.store c))
  | .store c => some ({ s with curl_global_init_done := !c.due }.at_ i (.unlock c))
  | .unlock _ => some ({ s with curl_global_init_mutex := none }.at_ i .idle)

def libraryStep (a : LibAct ι) (s : HttpLibrary ι) : Option (HttpLibrary ι) :=
  match a with
  | .call i c => if s.pc i = .idle then some (s.at_ i (.lock c)) else none
  | .go i ok => libraryGo i ok s

def library (ι : Type) [DecidableEq ι] : Lts (HttpLibrary ι) (LibAct ι) where
  init s := s = ⟨none, false, [], false, fun _ => .idle⟩
  step := libraryStep

/-! ## The invariant -/

def LibPc.holds : LibPc → Bool
  | .test _ | .curl _ | .store _ | .unlock _ => true
  | _ => false

/-- The last call of curl that has returned set it up. -/
def HttpLibrary.ready (s : HttpLibrary ι) : Bool := s.called.head? = some .init

/-- What the holder of the mutex knows. -/
def LibAt (s : HttpLibrary ι) : LibPc → Prop
  | .curl c => s.ready = c.due ∧ s.curl_global_init_done = c.due
  | .store c => s.called.head? = some c
  | .unlock c => s.ready = !c.due ∧ s.curl_global_init_done = !c.due
  | _ => s.ready = s.curl_global_init_done

/-- The calls take turns, and the first one sets up. -/
def InTurn (called : List LibCall) : Prop :=
  called.IsChain (· ≠ ·) ∧ ∀ c, called.getLast? = some c → c = .init

structure LibInv (s : HttpLibrary ι) : Prop where
  mutex : ∀ i, s.curl_global_init_mutex = some i ↔ (s.pc i).holds = true
  free : s.curl_global_init_mutex = none → s.ready = s.curl_global_init_done
  held : ∀ i, s.curl_global_init_mutex = some i → LibAt s (s.pc i)
  inTurn : InTurn s.called

/-- A call that is due. -/
theorem InTurn.cons {called : List LibCall} {c : LibCall} (h : InTurn called)
    (hdue : decide (called.head? = some .init) = c.due) : InTurn (c :: called) := by
  cases called with
  | nil =>
      refine ⟨List.isChain_singleton _, fun c' hlast => ?_⟩
      obtain rfl : c = c' := Option.some.inj hlast
      cases c with
      | init => rfl
      | cleanup => cases hdue
  | cons d called =>
      refine ⟨List.isChain_cons_cons.mpr ⟨?_, h.1⟩, fun c' hlast => h.2 c' hlast⟩
      rintro rfl
      cases c <;> cases hdue

section Moves

variable {s s₁ : HttpLibrary ι} {i : ι} {pc : LibPc}

theorem pc_self (s : HttpLibrary ι) (i : ι) (pc : LibPc) : (s.at_ i pc).pc i = pc :=
  Function.update_self ..

theorem pc_ne (s : HttpLibrary ι) {i j : ι} (pc : LibPc) (h : j ≠ i) :
    (s.at_ i pc).pc j = s.pc j :=
  Function.update_of_ne h ..

/-- A step of the holder, which keeps the mutex. -/
theorem LibInv.inside (h : LibInv s) (hm : s.curl_global_init_mutex = some i)
    (hmutex : s₁.curl_global_init_mutex = s.curl_global_init_mutex) (hpc : s₁.pc = s.pc)
    (hholds : pc.holds = true) (hat : LibAt s₁ pc) (hturn : InTurn s₁.called) :
    LibInv (s₁.at_ i pc) where
  mutex j := by
    show s₁.curl_global_init_mutex = some j ↔ _
    by_cases hj : j = i
    · rw [hj, pc_self, hmutex, hm]
      exact ⟨fun _ => hholds, fun _ => rfl⟩
    · rw [pc_ne _ _ hj, hpc, hmutex]
      exact h.mutex j
  free hfree := by
    rw [show s₁.curl_global_init_mutex = none from hfree] at hmutex
    cases hmutex.trans hm
  held j hj := by
    obtain rfl : i = j := Option.some.inj (hm.symm.trans (hmutex.symm.trans hj))
    rw [pc_self]
    exact hat
  inTurn := hturn

/-- A call begins. -/
theorem LibInv.call {c : LibCall} (h : LibInv s) (hpc : s.pc i = .idle) :
    LibInv (s.at_ i (.lock c)) where
  mutex j := by
    by_cases hj : j = i
    · rw [hj, pc_self]
      have hidle := h.mutex i
      rw [hpc] at hidle
      exact hidle
    · rw [pc_ne _ _ hj]
      exact h.mutex j
  free := h.free
  held j hj := by
    have hheld := h.held j hj
    by_cases hji : j = i
    · rw [hji, pc_self]
      rw [hji, hpc] at hheld
      exact hheld
    · rw [pc_ne _ _ hji]
      exact hheld
  inTurn := h.inTurn

theorem LibInv.lock {c : LibCall} (h : LibInv s) (hfree : s.curl_global_init_mutex = none) :
    LibInv ({ s with curl_global_init_mutex := some i }.at_ i (.test c)) where
  mutex j := by
    by_cases hj : j = i
    · rw [hj, pc_self]
      exact ⟨fun _ => rfl, fun _ => rfl⟩
    · rw [pc_ne _ _ hj]
      refine ⟨fun hm => absurd (Option.some.inj hm).symm hj, fun hholds => ?_⟩
      rw [(h.mutex j).mpr hholds] at hfree
      cases hfree
  free hm := by cases hm
  held j hj := by
    obtain rfl : i = j := Option.some.inj hj
    rw [pc_self]
    exact h.free hfree
  inTurn := h.inTurn

theorem LibInv.unlock {c : LibCall} (h : LibInv s) (hpc : s.pc i = .unlock c) :
    LibInv ({ s with curl_global_init_mutex := none }.at_ i .idle) := by
  have hm : s.curl_global_init_mutex = some i := (h.mutex i).mpr (by rw [hpc]; rfl)
  have hheld := h.held i hm
  rw [hpc] at hheld
  obtain ⟨hready, hdone⟩ : s.ready = !c.due ∧ s.curl_global_init_done = !c.due := hheld
  refine ⟨fun j => ⟨(fun hj => by cases hj), fun hholds => ?_⟩,
    fun _ => hready.trans hdone.symm, (fun j hj => by cases hj), h.inTurn⟩
  by_cases hj : j = i
  · rw [hj, pc_self] at hholds
    cases hholds
  · -- only the holder is where a thread holds the mutex
    rw [pc_ne _ _ hj] at hholds
    exact absurd (Option.some.inj (((h.mutex j).mpr hholds).symm.trans hm)) hj

end Moves

variable {s s' : HttpLibrary ι} {i : ι}

theorem LibInv.go {ok : Bool} (h : LibInv s) (hs : libraryGo i ok s = some s') : LibInv s' := by
  unfold libraryGo at hs
  have hm := h.mutex i
  have hheld := h.held i
  split at hs
  · cases hs
  · obtain ⟨hfree, hs⟩ := Option.ite_none_right_eq_some.mp hs
    exact Option.some.inj hs ▸ h.lock hfree
  · next c hpc =>
    rw [hpc] at hm hheld
    have hmutex := hm.mpr rfl
    have hready : s.ready = s.curl_global_init_done := hheld hmutex
    obtain rfl := Option.some.inj hs
    split
    · next hdone => exact h.inside hmutex rfl rfl rfl ⟨hready.trans hdone, hdone⟩ h.inTurn
    · next hdone =>
      have hnot : s.curl_global_init_done = !c.due := Bool.eq_not.mpr hdone
      exact h.inside hmutex rfl rfl rfl ⟨hready.trans hnot, hnot⟩ h.inTurn
  · next c hpc =>
    rw [hpc] at hm hheld
    have hmutex := hm.mpr rfl
    obtain ⟨hready, -⟩ : s.ready = c.due ∧ s.curl_global_init_done = c.due := hheld hmutex
    exact Option.some.inj hs ▸ h.inside hmutex rfl rfl rfl rfl (h.inTurn.cons hready)
  · next c hpc =>
    rw [hpc] at hm hheld
    have hmutex := hm.mpr rfl
    have hlast : s.called.head? = some c := hheld hmutex
    have hready : s.ready = !c.due := by
      unfold HttpLibrary.ready
      rw [hlast]
      cases c <;> rfl
    exact Option.some.inj hs ▸ h.inside hmutex rfl rfl rfl ⟨hready, rfl⟩ h.inTurn
  · next c hpc => exact Option.some.inj hs ▸ h.unlock hpc

theorem inv_of_library (h : (library ι).Reach Lts.Any s) : LibInv s := by
  refine h.invariant (I := LibInv) ?_ ?_
  · rintro _ rfl
    exact ⟨fun i => ⟨(fun h => by cases h), (fun h => by cases h)⟩, fun _ => rfl,
      (fun _ h => by cases h), List.isChain_nil, (fun _ h => by cases h)⟩
  · intro s a s' _ hi _ hs
    cases a with
    | call i c =>
        obtain ⟨hpc, hs⟩ := Option.ite_none_right_eq_some.mp hs
        exact Option.some.inj hs ▸ hi.call hpc
    | go i ok => exact hi.go hs

/-! ## Whether curl is set up -/

/-- Set-ups of curl succeed. -/
def SetsUp (_ : HttpLibrary ι) : LibAct ι → Prop
  | .call _ _ => True
  | .go _ ok => ok = true

/-- Only a call of curl sets it up or cleans it up. -/
theorem libraryStep_up {a : LibAct ι} (hs : libraryStep a s = some s') :
    s'.called = s.called ∧ s'.up = s.up
      ∨ ∃ i ok c, a = .go i ok ∧ s'.called = c :: s.called
        ∧ s'.up = (decide (c = LibCall.init) && ok) := by
  cases a with
  | call i c =>
      obtain ⟨-, hs⟩ := Option.ite_none_right_eq_some.mp hs
      exact Option.some.inj hs ▸ .inl ⟨rfl, rfl⟩
  | go i ok =>
      rw [libraryStep, libraryGo] at hs
      split at hs
      · cases hs
      · obtain ⟨-, hs⟩ := Option.ite_none_right_eq_some.mp hs
        exact Option.some.inj hs ▸ .inl ⟨rfl, rfl⟩
      · exact Option.some.inj hs ▸ .inl ⟨rfl, rfl⟩
      · next c _ => exact Option.some.inj hs ▸ .inr ⟨i, ok, c, rfl, rfl, rfl⟩
      · exact Option.some.inj hs ▸ .inl ⟨rfl, rfl⟩
      · exact Option.some.inj hs ▸ .inl ⟨rfl, rfl⟩

theorem asked_of_up (h : (library ι).Reach Lts.Any s) (hup : s.up = true) :
    s.called.head? = some .init := by
  refine h.invariant (I := fun s => s.up = true → s.called.head? = some .init) ?_ ?_ hup
  · rintro _ rfl hup
    cases hup
  · intro s a s' _ hi _ hs hup
    rcases libraryStep_up hs with ⟨hcalled, hsame⟩ | ⟨i, ok, c, -, hcalled, hnew⟩
    · rw [hcalled]
      exact hi (hsame ▸ hup)
    · rw [hnew, Bool.and_eq_true] at hup
      rw [hcalled, of_decide_eq_true hup.1]
      rfl

theorem up_of_asked (h : (library ι).Reach SetsUp s) (hasked : s.called.head? = some .init) :
    s.up = true := by
  refine h.invariant (I := fun s => s.called.head? = some .init → s.up = true) ?_ ?_ hasked
  · rintro _ rfl hasked
    cases hasked
  · intro s a s' _ hi hok hs hasked
    rcases libraryStep_up hs with ⟨hcalled, hsame⟩ | ⟨i, ok, c, rfl, hcalled, hnew⟩
    · rw [hsame]
      exact hi (hcalled ▸ hasked)
    · rw [hcalled] at hasked
      obtain rfl : c = .init := Option.some.inj hasked
      obtain rfl : ok = true := hok
      exact hnew

/-- **Curl is set up and cleaned up in turn.** In every interleaving of any
number of threads that call `sl_http_library_init` and
`sl_http_library_cleanup`, with set-ups of curl that fail or succeed: never
are two inside curl, the calls of curl take turns from a set-up on, and when
a thread is about to return, the last call of curl is the one that it asked
for. So curl is set up then only for one that asked for it, and in a run
without a failing set-up for every such one. -/
theorem library_in_turn (h : (library ι).Reach Lts.Any s) :
    (∀ i j c c', s.pc i = .curl c → s.pc j = .curl c' → i = j)
      ∧ InTurn s.called
      ∧ ∀ i c, s.pc i = .unlock c →
        (s.called.head? = some .init ↔ c = .init)
          ∧ (s.up = true → c = .init)
          ∧ ((library ι).Reach SetsUp s → c = .init → s.up = true) := by
  have hinv := inv_of_library h
  refine ⟨fun i j c c' hi hj => ?_, hinv.inTurn, fun i c hi => ?_⟩
  · have hmi := (hinv.mutex i).mpr (by rw [hi]; rfl)
    have hmj := (hinv.mutex j).mpr (by rw [hj]; rfl)
    exact Option.some.inj (hmi.symm.trans hmj)
  · have hready : s.ready = !c.due := by
      have hheld := hinv.held i ((hinv.mutex i).mpr (by rw [hi]; rfl))
      rw [hi] at hheld
      exact hheld.1
    have hasked : s.called.head? = some .init ↔ c = .init := by
      unfold HttpLibrary.ready at hready
      cases c with
      | init => exact ⟨fun _ => rfl, fun _ => of_decide_eq_true hready⟩
      | cleanup => exact ⟨fun h => absurd h (of_decide_eq_false hready), fun h => by cases h⟩
    exact ⟨hasked, fun hup => hasked.mp (asked_of_up h hup),
      fun hsets hc => up_of_asked hsets (hasked.mpr hc)⟩

end Library

/-- Two threads set up, of which one waits for the other. The set-up of curl
fails, and is not made again. -/
theorem library_in_turn_run :
    ∃ s : HttpLibrary Bool, (library Bool).Reach Lts.Any s
      ∧ s.called = [.init] ∧ s.up = false ∧ s.pc true = .unlock .init ∧ InTurn s.called := by
  let M := library Bool
  let go (i : Bool) : LibAct Bool := .go i false
  let acts : List (LibAct Bool) := [.call false .init, .call true .init, go false, go false,
    go false, go false, go false, go true, go true]
  let s₀ : HttpLibrary Bool := ⟨none, false, [], false, fun _ => .idle⟩
  have hrun : (M.run acts s₀).map (fun s => (s.called, s.up, s.pc true))
      = some ([.init], false, .unlock .init) := by decide
  obtain ⟨s, hs, hstate⟩ := Option.map_eq_some_iff.mp hrun
  obtain ⟨hcalled, hstate⟩ := Prod.mk.inj hstate
  obtain ⟨hup, hpc⟩ := Prod.mk.inj hstate
  have hreach : M.Reach Lts.Any s := .run (fun _ _ _ => trivial) (.init rfl) hs
  exact ⟨s, hreach, hcalled, hup, hpc, (library_in_turn hreach).2.1⟩

end Streamlike
