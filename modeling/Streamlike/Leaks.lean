import Mathlib.Algebra.Module.NatInt
import Streamlike.Lifecycle
import Streamlike.Lts

/-!
# What a program with streams leaks

A program that opens and closes streams of all three kinds, in any order
and number, with any of the requests refused. What is live is what its
streams hold and what is lost (`leaks_accounted`): for each buffered stream
the lock and the condition that `sl_buffer_create2` keeps for the end of
file and stores nowhere; what is inside a ring for a creation that failed
behind it; a file for an `sl_fopen` that got no memory; and a stream for a
failed `sl_fclose`. A stream of `http.c` loses nothing.
-/

namespace Streamlike

namespace Life

inductive Handle where
  | buffer (b : SlBuffer)
  | http (h : SlHttp)
  | file (f : SlFile)

def Handle.held : Handle → Multiset (Thing Kind)
  | .buffer b => b.held
  | .http h => h.held
  | .file f => f.held

def heldBy (handles : List Handle) : Multiset (Thing Kind) := (handles.map Handle.held).sum

/-- The open streams, and how many buffered streams have been created, how
many creations and how many `sl_fopen` have returned a null pointer, and
how many `sl_fclose` have returned -1. -/
structure Streams where
  heap : Heap Kind
  handles : List Handle
  created : Nat
  createFailed : Nat
  fopenFailed : Nat
  fcloseFailed : Nat

inductive Act where
  | bufferCreate2 (inner_stream : Bool) (buffer_size step_size : Nat)
  | bufferFill (i : Nat)
  | bufferDestroy (i : Nat) (join : Bool) (lock cond : Int)
  | httpCreate
  | httpDestroy (i : Nat)
  | fopen
  | fclose (i : Nat) (ret : Int)

/-- A call with the `i`-th stream. A stream that `sl_fclose` fails to close
is not used again. -/
def streamsStep (grants : Grants Kind) (a : Act) (s : Streams) : Option Streams :=
  match a with
  | .bufferCreate2 inner_stream buffer_size step_size =>
      match slBufferCreate2 grants inner_stream buffer_size step_size s.heap with
      | (some b, heap) =>
          some { s with heap, handles := .buffer b :: s.handles, created := s.created + 1 }
      | (none, heap) => some { s with heap, createFailed := s.createFailed + 1 }
  | .bufferFill i =>
      match s.handles[i]? with
      | some (.buffer b) =>
          let ((_, b), heap) := slBufferThreadedFillBuffer grants b s.heap
          some { s with heap, handles := s.handles.set i (.buffer b) }
      | _ => none
  | .bufferDestroy i join lock cond =>
      match s.handles[i]? with
      | some (.buffer b) =>
          match slBufferDestroy join lock cond b s.heap with
          | ((_, some b), heap) => some { s with heap, handles := s.handles.set i (.buffer b) }
          | ((_, none), heap) => some { s with heap, handles := s.handles.eraseIdx i }
      | _ => none
  | .httpCreate =>
      match slHttpCreate grants s.heap with
      | (some h, heap) => some { s with heap, handles := .http h :: s.handles }
      | (none, heap) => some { s with heap }
  | .httpDestroy i =>
      match s.handles[i]? with
      | some (.http h) =>
          some { s with heap := (slHttpDestroy h s.heap).2, handles := s.handles.eraseIdx i }
      | _ => none
  | .fopen =>
      match slFopen grants s.heap with
      | (some f, heap) => some { s with heap, handles := .file f :: s.handles }
      | (none, heap) => some { s with heap, fopenFailed := s.fopenFailed + 1 }
  | .fclose i ret =>
      match s.handles[i]? with
      | some (.file f) =>
          let (code, heap) := slFclose ret f s.heap
          some { s with
            heap
            handles := s.handles.eraseIdx i
            fcloseFailed := if code = 0 then s.fcloseFailed else s.fcloseFailed + 1 }
      | _ => none

def streams (grants : Grants Kind) : Lts Streams Act where
  init s := s = ⟨⟨0, 0, false⟩, [], 0, 0, 0, 0⟩
  step := streamsStep grants

/-- A mutex and a condition with their memory. -/
def eofKinds : Multiset Kind := {.cond, .mutex, .memory, .memory}

/-- What is inside a ring. -/
def ringKinds : Multiset Kind := {.memory, .rcond, .wcond, .rlock, .wlock}

/-- What is lost, by kind. -/
def Lost (s : Streams) (lost : Multiset (Thing Kind)) : Prop :=
  ∃ late ≤ s.createFailed, ∃ files ≤ s.fopenFailed,
    lost.map Prod.fst = s.created • eofKinds + late • ringKinds + files • {Kind.file}
      + s.fcloseFailed • {Kind.memory}

structure Accounted (grants : Grants Kind) (s : Streams) (lost : Multiset (Thing Kind))
    (bad : Bool) : Prop where
  holds : s.heap.Holds (heldBy s.handles + lost) bad
  lost : Lost s lost
  proper : Granted grants → bad = false

section Handles

variable {handles : List Handle} {i : Nat} {x : Handle}

theorem heldBy_cons (x : Handle) (handles : List Handle) :
    heldBy (x :: handles) = x.held + heldBy handles := by
  rw [heldBy, List.map_cons, List.sum_cons]
  rfl

theorem heldBy_erase (h : handles[i]? = some x) :
    heldBy handles = x.held + heldBy (handles.eraseIdx i) :=
  sum_eraseIdx Handle.held h

theorem heldBy_set (h : handles[i]? = some x) (y : Handle) :
    heldBy (handles.set i y) = y.held + heldBy (handles.eraseIdx i) :=
  sum_set Handle.held h y

end Handles

section Steps

variable {grants : Grants Kind} {s s' : Streams} {lost : Multiset (Thing Kind)} {bad : Bool}

/-- More is lost, and counted. -/
theorem Lost.more (h : Lost s lost) (more : Multiset (Thing Kind))
    (created late files closed : Nat)
    (hmore : more.map Prod.fst = created • eofKinds + late • ringKinds + files • {Kind.file}
      + closed • {Kind.memory})
    (hcreated : s'.created = s.created + created)
    (hlate : s.createFailed + late ≤ s'.createFailed)
    (hfiles : s.fopenFailed + files ≤ s'.fopenFailed)
    (hclosed : s'.fcloseFailed = s.fcloseFailed + closed) : Lost s' (more + lost) := by
  obtain ⟨late₀, hlate₀, files₀, hfiles₀, hlost⟩ := h
  refine ⟨late₀ + late, by omega, files₀ + files, by omega, ?_⟩
  rw [Multiset.map_add, hmore, hlost, hcreated, hclosed]
  simp only [add_nsmul]
  abel

/-- Nothing more is lost. -/
theorem Lost.same (h : Lost s lost) (hcreated : s'.created = s.created)
    (hlate : s.createFailed ≤ s'.createFailed) (hfiles : s.fopenFailed ≤ s'.fopenFailed)
    (hclosed : s'.fcloseFailed = s.fcloseFailed) : Lost s' lost := by
  have hmore := h.more 0 0 0 0 0 (by simp) hcreated hlate hfiles hclosed
  rwa [zero_add] at hmore

theorem Accounted.create {inner_stream : Bool} {buffer_size step_size : Nat}
    (h : Accounted grants s lost bad)
    (hs : streamsStep grants (.bufferCreate2 inner_stream buffer_size step_size) s = some s') :
    ∃ lost' bad', Accounted grants s' lost' bad' := by
  obtain ⟨owned, bad', ⟨hbad, hcreated⟩, hholds⟩ :=
    @slBufferCreate2_spec grants _ _ inner_stream buffer_size step_size s.heap h.holds
  have hproper := fun hgranted => (hbad hgranted).trans (h.proper hgranted)
  rw [streamsStep] at hs
  rcases hcall : slBufferCreate2 grants inner_stream buffer_size step_size s.heap with ⟨b, heap⟩
  rw [hcall] at hs hcreated hholds
  cases b with
  | none =>
      obtain rfl := Option.some.inj hs
      rcases hcreated with rfl | ⟨cb, rfl⟩
      · exact ⟨lost, bad', hholds, h.lost.same rfl (Nat.le_succ _) (Nat.le_refl _) rfl, hproper⟩
      · refine ⟨cb.inside + lost, bad', ?_, h.lost.more cb.inside 0 1 0 0 ?_ rfl (Nat.le_refl _)
          (Nat.le_refl _) rfl, hproper⟩
        · rwa [add_left_comm] at hholds
        · simp [Circbuf.inside, ringKinds]
  | some b =>
      obtain rfl := Option.some.inj hs
      obtain ⟨eof_lock, eof_cond, rfl⟩ := hcreated
      refine ⟨pairOf .mutex (some eof_lock) true + pairOf .cond (some eof_cond) true + lost, bad',
        ?_, h.lost.more _ 1 0 0 0 ?_ rfl (Nat.le_refl _) (Nat.le_refl _) rfl, hproper⟩
      · dsimp only at hholds ⊢
        rw [heldBy_cons]
        convert hholds using 1
        rw [Handle.held]
        abel
      · simp [pairOf, eofKinds]

theorem Accounted.bufferFill {i : Nat} (h : Accounted grants s lost bad)
    (hs : streamsStep grants (.bufferFill i) s = some s') :
    ∃ lost' bad', Accounted grants s' lost' bad' := by
  rw [streamsStep] at hs
  split at hs
  · next b hb =>
    have hheld : heldBy s.handles + lost = b.held + (heldBy (s.handles.eraseIdx i) + lost) := by
      rw [heldBy_erase hb, add_assoc]
      rfl
    obtain ⟨owned, bad', ⟨hbad, hfilled⟩, hholds⟩ :=
      @slBufferThreadedFillBuffer_spec grants _ _ b _ hheld s.heap h.holds
    rcases hcall : slBufferThreadedFillBuffer grants b s.heap with ⟨⟨code, b'⟩, heap⟩
    rw [hcall] at hs hfilled hholds
    obtain rfl := Option.some.inj hs
    refine ⟨lost, bad', ?_, h.lost.same rfl (Nat.le_refl _) (Nat.le_refl _) rfl,
      fun hgranted => (hbad hgranted).trans (h.proper hgranted)⟩
    dsimp only
    rw [heldBy_set hb, add_assoc]
    exact hfilled ▸ hholds
  · cases hs

theorem Accounted.bufferDestroy {i : Nat} {join : Bool} {lock cond : Int}
    (h : Accounted grants s lost bad)
    (hs : streamsStep grants (.bufferDestroy i join lock cond) s = some s') :
    ∃ lost' bad', Accounted grants s' lost' bad' := by
  rw [streamsStep] at hs
  split at hs
  · next b hb =>
    have hheld : heldBy s.handles + lost = b.held + (heldBy (s.handles.eraseIdx i) + lost) := by
      rw [heldBy_erase hb, add_assoc]
      rfl
    obtain ⟨owned, bad', ⟨hbad, hleft, -⟩, hholds⟩ :=
      @slBufferDestroy_spec _ _ join lock cond b _ hheld s.heap h.holds
    rcases hcall : slBufferDestroy join lock cond b s.heap with ⟨⟨code, b'⟩, heap⟩
    rw [hcall] at hs hleft hholds
    have hproper := fun hgranted => hbad.trans (h.proper hgranted)
    cases b' with
    | some b' =>
        obtain rfl := Option.some.inj hs
        refine ⟨lost, bad', ?_, h.lost.same rfl (Nat.le_refl _) (Nat.le_refl _) rfl, hproper⟩
        dsimp only
        rw [heldBy_set hb, add_assoc]
        exact hleft ▸ hholds
    | none =>
        obtain rfl := Option.some.inj hs
        refine ⟨lost, bad', ?_, h.lost.same rfl (Nat.le_refl _) (Nat.le_refl _) rfl, hproper⟩
        exact (hleft.trans (zero_add _)) ▸ hholds
  · cases hs

theorem Accounted.httpCreate (h : Accounted grants s lost bad)
    (hs : streamsStep grants .httpCreate s = some s') :
    ∃ lost' bad', Accounted grants s' lost' bad' := by
  obtain ⟨owned, bad', ⟨hbad, hcreated⟩, hholds⟩ := @slHttpCreate_spec grants _ _ s.heap h.holds
  have hproper := fun hgranted => hbad.trans (h.proper hgranted)
  rw [streamsStep] at hs
  rcases hcall : slHttpCreate grants s.heap with ⟨r, heap⟩
  rw [hcall] at hs hcreated hholds
  cases r with
  | none =>
      obtain rfl := Option.some.inj hs
      refine ⟨lost, bad', ?_, h.lost.same rfl (Nat.le_refl _) (Nat.le_refl _) rfl, hproper⟩
      exact (hcreated.trans (zero_add _)) ▸ hholds
  | some http =>
      obtain rfl := Option.some.inj hs
      refine ⟨lost, bad', ?_, h.lost.same rfl (Nat.le_refl _) (Nat.le_refl _) rfl, hproper⟩
      dsimp only
      rw [heldBy_cons, add_assoc]
      exact hcreated ▸ hholds

theorem Accounted.httpDestroy {i : Nat} (h : Accounted grants s lost bad)
    (hs : streamsStep grants (.httpDestroy i) s = some s') :
    ∃ lost' bad', Accounted grants s' lost' bad' := by
  rw [streamsStep] at hs
  split at hs
  · next http hb =>
    have hheld : heldBy s.handles + lost = http.held + (heldBy (s.handles.eraseIdx i) + lost) := by
      rw [heldBy_erase hb, add_assoc]
      rfl
    obtain ⟨owned, bad', ⟨hbad, hleft⟩, hholds⟩ :=
      @slHttpDestroy_spec _ _ http _ hheld s.heap h.holds
    obtain rfl := Option.some.inj hs
    exact ⟨lost, bad', hleft ▸ hholds, h.lost.same rfl (Nat.le_refl _) (Nat.le_refl _) rfl,
      fun hgranted => hbad.trans (h.proper hgranted)⟩
  · cases hs

theorem Accounted.fopen (h : Accounted grants s lost bad)
    (hs : streamsStep grants .fopen s = some s') :
    ∃ lost' bad', Accounted grants s' lost' bad' := by
  obtain ⟨owned, bad', ⟨hbad, hopened⟩, hholds⟩ := @slFopen_spec grants _ _ s.heap h.holds
  have hproper := fun hgranted => hbad.trans (h.proper hgranted)
  rw [streamsStep] at hs
  rcases hcall : slFopen grants s.heap with ⟨r, heap⟩
  rw [hcall] at hs hopened hholds
  cases r with
  | none =>
      obtain rfl := Option.some.inj hs
      rcases hopened with rfl | ⟨file, rfl⟩
      · exact ⟨lost, bad', hholds, h.lost.same rfl (Nat.le_refl _) (Nat.le_succ _) rfl, hproper⟩
      · refine ⟨{(.file, file)} + lost, bad', ?_, h.lost.more _ 0 0 1 0 ?_ rfl (Nat.le_refl _)
          (Nat.le_refl _) rfl, hproper⟩
        · rwa [add_left_comm] at hholds
        · simp
  | some f =>
      obtain rfl := Option.some.inj hs
      refine ⟨lost, bad', ?_, h.lost.same rfl (Nat.le_refl _) (Nat.le_refl _) rfl, hproper⟩
      dsimp only
      rw [heldBy_cons, add_assoc]
      exact hopened ▸ hholds

theorem Accounted.fclose {i : Nat} {ret : Int} (h : Accounted grants s lost bad)
    (hs : streamsStep grants (.fclose i ret) s = some s') :
    ∃ lost' bad', Accounted grants s' lost' bad' := by
  rw [streamsStep] at hs
  split at hs
  · next f hb =>
    have hheld : heldBy s.handles + lost = f.held + (heldBy (s.handles.eraseIdx i) + lost) := by
      rw [heldBy_erase hb, add_assoc]
      rfl
    obtain ⟨owned, bad', ⟨hbad, hclosed⟩, hholds⟩ :=
      @slFclose_spec _ _ ret f _ hheld s.heap h.holds
    rcases hcall : slFclose ret f s.heap with ⟨code, heap⟩
    rw [hcall] at hs hclosed hholds
    have hproper := fun hgranted => hbad.trans (h.proper hgranted)
    obtain rfl := Option.some.inj hs
    by_cases hcode : code = 0
    · dsimp only at hclosed
      rw [if_pos hcode, zero_add] at hclosed
      exact ⟨lost, bad', hclosed ▸ hholds,
        h.lost.same rfl (Nat.le_refl _) (Nat.le_refl _) (if_pos hcode), hproper⟩
    · dsimp only at hclosed
      rw [if_neg hcode, add_left_comm] at hclosed
      refine ⟨{(.memory, f.stream)} + lost, bad', hclosed ▸ hholds, h.lost.more _ 0 0 0 1 ?_ rfl
        (Nat.le_refl _) (Nat.le_refl _) (if_neg hcode), hproper⟩
      simp
  · cases hs

end Steps

/-- **What is live is what the streams hold and what is lost.** In every run
that opens, fills and closes streams, whichever requests are refused: each
buffered stream ever created has lost two pairs of memory and what is
initialised in it, a failed creation at most what is inside a ring, a
failed `sl_fopen` at most a file, and a failed `sl_fclose` a stream. And
unless a mutex, a condition or a thread identifier is refused, nothing is
released that is not live. -/
theorem leaks_accounted (grants : Grants Kind) {s : Streams}
    (h : (streams grants).Reach Lts.Any s) :
    (∃ lost, s.heap.live = heldBy s.handles + lost ∧ Lost s lost)
      ∧ (Granted grants → s.heap.misused = false) := by
  obtain ⟨lost, bad, hacc⟩ : ∃ lost bad, Accounted grants s lost bad := by
    refine h.invariant (I := fun s => ∃ lost bad, Accounted grants s lost bad) ?_ ?_
    · rintro _ rfl
      exact ⟨0, false, ⟨rfl, rfl, by simp [heldBy]⟩, ⟨0, Nat.le_refl _, 0, Nat.le_refl _, by simp⟩,
        fun _ => rfl⟩
    · rintro s a s' - ⟨lost, bad, hi⟩ - hs
      cases a with
      | bufferCreate2 => exact hi.create hs
      | bufferFill => exact hi.bufferFill hs
      | bufferDestroy => exact hi.bufferDestroy hs
      | httpCreate => exact hi.httpCreate hs
      | httpDestroy => exact hi.httpDestroy hs
      | fopen => exact hi.fopen hs
      | fclose => exact hi.fclose hs
  exact ⟨⟨lost, hacc.holds.live, hacc.lost⟩,
    fun hgranted => hacc.holds.misused.trans (hacc.proper hgranted)⟩

/-- A buffered stream over an HTTP stream, opened, filled and closed. -/
theorem leaks_accounted_run :
    ∃ s, (streams fun _ _ => true).run [.httpCreate, .bufferCreate2 true 4 1, .bufferFill 0,
        .bufferDestroy 0 true 0 0, .httpDestroy 0] ⟨⟨0, 0, false⟩, [], 0, 0, 0, 0⟩ = some s
      ∧ s.heap.live.map Prod.fst = {Kind.cond, Kind.mutex, Kind.memory, Kind.memory}
      ∧ s.heap.misused = false := by
  let M := streams fun _ _ => true
  let acts : List Act := [.httpCreate, .bufferCreate2 true 4 1, .bufferFill 0,
    .bufferDestroy 0 true 0 0, .httpDestroy 0]
  let s₀ : Streams := ⟨⟨0, 0, false⟩, [], 0, 0, 0, 0⟩
  have hrun : (M.run acts s₀).map (fun s => (s.handles.length, s.created, s.createFailed,
      s.fopenFailed, s.fcloseFailed)) = some (0, 1, 0, 0, 0) := by decide
  obtain ⟨s, hs, heq⟩ := Option.map_eq_some_iff.mp hrun
  simp only [Prod.mk.injEq, List.length_eq_zero_iff] at heq
  obtain ⟨hnil, hcreated, hfailed, hfopen, hfclose⟩ := heq
  obtain ⟨⟨lost, hlive, late, hlate, files, hfiles, hlost⟩, hproper⟩ :=
    leaks_accounted _ (.run (M := M) (fun _ _ _ => trivial) (.init rfl) hs)
  obtain rfl : late = 0 := by omega
  obtain rfl : files = 0 := by omega
  refine ⟨s, hs, ?_, hproper ⟨fun _ => rfl, fun _ => rfl, fun _ => rfl⟩⟩
  rw [hlive, hnil, heldBy, List.map_nil, List.sum_nil, zero_add, hlost, hcreated, hfclose]
  simp [eofKinds]

end Life

end Streamlike
