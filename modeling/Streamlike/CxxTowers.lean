import Streamlike.Cxx

/-!
# The C++ classes: what is below a buffered stream

`StreamlikeBuffer<T>` has the object that it buffers inside it, and destroys
its own stream before that one. So a buffered stream is never left without
the stream below it, if it is not taken out of its object by a move of the
base class, and not made over a reference, which keeps nothing
(`objects_accounted`).
-/

namespace Streamlike

namespace Cxx

/-! ## Buffered streams and what they buffer -/

/-- What is below a buffered stream is there with it. -/
def Closed (buffering : List (CStream × CStream)) (m : Multiset CStream) : Prop :=
  ∀ p ∈ buffering, p.1 ∈ m → p.2 ∈ m

/-- The object's own stream buffers none. -/
def Obj.Plain (o : Obj) : Prop := ∀ s, o.self = some s → s.1 ≠ .buffer

/-- Every buffered stream is held together with the one below it. -/
def Obj.Whole (buffering : List (CStream × CStream)) : Obj → Prop
  | .buffer self mInnerStream =>
      (∀ s, self = some s → s.1 = .buffer → ∃ t, mInnerStream.self = some t ∧ (s, t) ∈ buffering)
        ∧ mInnerStream.Whole buffering
  | o => o.Plain

/-- Each buffered stream is created over one stream. -/
structure Layered (buffering : List (CStream × CStream)) : Prop where
  kind : ∀ p ∈ buffering, p.1.1 = .buffer
  one : ∀ p ∈ buffering, ∀ q ∈ buffering, p.1 = q.1 → p.2 = q.2

/-- Each buffered stream is there only with the one below it. -/
structure Towers (w : World) : Prop where
  layered : Layered w.buffering
  given : ∀ p ∈ w.buffering, p.1.2 < w.count
  whole : ∀ o ∈ w.objs, o.Whole w.buffering
  lost : Closed w.buffering w.lost
  proper : w.orphaned = false

section Towers

variable {buffering : List (CStream × CStream)} {o : Obj}

theorem Closed.add {m n : Multiset CStream} (hm : Closed buffering m) (hn : Closed buffering n) :
    Closed buffering (m + n) := by
  intro p hp hmem
  rcases Multiset.mem_add.mp hmem with h | h
  · exact Multiset.mem_add.mpr (.inl (hm p hp h))
  · exact Multiset.mem_add.mpr (.inr (hn p hp h))

theorem Closed.zero : Closed buffering 0 :=
  fun _ _ h => absurd h (Multiset.notMem_zero _)

/-- A stream that buffers nothing. -/
theorem Closed.plain {self : Option CStream} (hl : Layered buffering)
    (hself : ∀ s, self = some s → s.1 ≠ .buffer) :
    Closed buffering (Option.elim self 0 ({·})) := by
  cases self with
  | none => exact .zero
  | some s =>
      intro p hp hmem
      obtain rfl := Multiset.mem_singleton.mp hmem
      exact absurd (hl.kind p hp) (hself _ rfl)

theorem mem_held {t : CStream} (h : o.self = some t) : t ∈ o.held := by
  rw [← self_held, h]
  exact Multiset.mem_add.mpr (.inl (Multiset.mem_singleton_self t))

theorem closed_held (hl : Layered buffering) :
    ∀ {o : Obj}, o.Whole buffering → Closed buffering o.held
  | .base _, hwhole | .file _, hwhole | .http _, hwhole | .bufferRef _, hwhole =>
      .plain hl hwhole
  | .buffer self mInnerStream, hwhole => by
      have hinner := closed_held hl hwhole.2
      intro p hp hmem
      refine Multiset.mem_add.mpr (.inr ?_)
      rcases Multiset.mem_add.mp hmem with hmem | hmem
      · cases self with
        | none => exact absurd hmem (Multiset.notMem_zero _)
        | some s =>
            obtain rfl := Multiset.mem_singleton.mp hmem
            obtain ⟨t, ht, hover⟩ := hwhole.1 _ rfl (hl.kind p hp)
            rw [hl.one p hp _ hover rfl]
            exact mem_held ht
      · exact hinner p hp hmem

theorem closed_abandoned (hl : Layered buffering) :
    ∀ {o : Obj}, o.Whole buffering → Closed buffering o.abandoned
  | .base _, hwhole => .plain hl hwhole
  | .file _, _ | .http _, _ | .bufferRef _, _ => .zero
  | .buffer _ mInnerStream, hwhole => closed_abandoned hl (o := mInnerStream) hwhole.2

theorem withSelf_whole {self : Option CStream} (h : o.Whole buffering)
    (hself : ∀ s, self = some s → s.1 ≠ .buffer) : (o.withSelf self).Whole buffering := by
  cases o with
  | buffer _ mInnerStream => exact ⟨fun s hs hbuffer => absurd hbuffer (hself s hs), h.2⟩
  | _ => exact hself

theorem sliced_whole (h : o.Whole buffering) : o.sliced.Whole buffering :=
  withSelf_whole h fun _ hs => by cases hs

/-- What a move takes whole stays whole. -/
theorem moved_whole : ∀ o : Obj, o.moved.Whole buffering
  | .base _ | .file _ | .http _ | .bufferRef _ => fun _ h => by cases h
  | .buffer _ mInnerStream => ⟨(fun _ h => by cases h), moved_whole mInnerStream⟩

theorem move_whole {c : Cls} {old new left : Obj} (h : old.move c = some (new, left))
    (hplain : c = .base → old.Plain) (hwhole : old.Whole buffering) :
    new.Whole buffering ∧ left.Whole buffering := by
  rcases move_cases h with ⟨hc, rfl, rfl⟩ | ⟨-, rfl, rfl⟩
  · exact ⟨hplain hc, sliced_whole hwhole⟩
  · exact ⟨hwhole, moved_whole _⟩

/-- A new buffered stream changes nothing for the old ones. -/
theorem Obj.Whole.more {q : CStream × CStream} :
    ∀ {o : Obj}, o.Whole buffering → o.Whole (q :: buffering)
  | .base _, h | .file _, h | .http _, h | .bufferRef _, h => h
  | .buffer _ _, h => by
      refine ⟨fun s hs hbuffer => ?_, h.2.more⟩
      obtain ⟨t, ht, hmem⟩ := h.1 s hs hbuffer
      exact ⟨t, ht, List.mem_cons_of_mem _ hmem⟩

theorem Closed.more {q : CStream × CStream} {m : Multiset CStream} (hm : Closed buffering m)
    (hq : q.1 ∉ m) : Closed (q :: buffering) m := by
  intro p hp hmem
  rcases List.mem_cons.mp hp with rfl | hp
  · exact absurd hmem hq
  · exact hm p hp hmem

theorem closed_heldBy : ∀ {objs : List Obj}, (∀ o ∈ objs, Closed buffering o.held) →
    Closed buffering (heldBy objs)
  | [], _ => .zero
  | o :: objs, h => by
      rw [heldBy_cons]
      exact (h o List.mem_cons_self).add
        (closed_heldBy fun o' ho' => h o' (List.mem_cons_of_mem _ ho'))

/-- A stream is destroyed after the one that buffers it. -/
theorem close_orphaned {w : World} {k : StreamKind} {s : CStream} {rest : Multiset CStream}
    (hlive : w.live = {s} + rest) (hnodup : w.live.Nodup) (hrest : Closed w.buffering rest)
    (hself : ∀ p ∈ w.buffering, p.1 = s → p.2 ≠ s) :
    (w.close k (some s)).orphaned = w.orphaned := by
  have hs : s ∉ rest := by
    rw [hlive, Multiset.singleton_add] at hnodup
    exact (Multiset.nodup_cons.mp hnodup).1
  show (w.orphaned || _) = w.orphaned
  rw [Bool.or_eq_left_iff_imp]
  intro hany
  obtain ⟨p, hp, hover⟩ := List.any_eq_true.mp hany
  obtain ⟨hp₂, hp₁⟩ := of_decide_eq_true hover
  rw [hlive] at hp₁
  rcases Multiset.mem_add.mp hp₁ with h | h
  · exact absurd hp₂ (hself p hp (Multiset.mem_singleton.mp h))
  · exact absurd (hp₂ ▸ hrest p hp h) hs

theorem closeSelf_orphaned {w : World} {k : StreamKind} {self : Option CStream}
    {rest : Multiset CStream} (hlive : w.live = Option.elim self 0 ({·}) + rest)
    (hnodup : w.live.Nodup) (hrest : Closed w.buffering rest)
    (hself : ∀ s, self = some s → ∀ p ∈ w.buffering, p.1 = s → p.2 ≠ s) :
    (w.close k self).orphaned = w.orphaned := by
  cases self with
  | none => rfl
  | some s => exact close_orphaned hlive hnodup hrest (hself s rfl)

/-- One that buffers none is over nothing. -/
theorem closePlain_orphaned {w : World} {k : StreamKind} {self : Option CStream}
    {rest : Multiset CStream} (hl : Layered w.buffering)
    (hlive : w.live = Option.elim self 0 ({·}) + rest) (hnodup : w.live.Nodup)
    (hrest : Closed w.buffering rest) (hplain : ∀ s, self = some s → s.1 ≠ .buffer) :
    (w.close k self).orphaned = w.orphaned := by
  refine closeSelf_orphaned hlive hnodup hrest fun s hs p hp hps => ?_
  exact absurd (hps ▸ hl.kind p hp) (hplain s hs)

theorem destruct_orphaned : ∀ {o : Obj} {w : World} {rest : Multiset CStream},
    Layered w.buffering → o.Whole w.buffering → w.live = o.held + rest →
    w.live.Nodup → Closed w.buffering rest →
    (w.destruct o).orphaned = w.orphaned
  | .base _, _, _, _, _, _, _, _ => rfl
  | .file _, _, _, hl, hwhole, hlive, hnodup, hrest
  | .http _, _, _, hl, hwhole, hlive, hnodup, hrest
  | .bufferRef _, _, _, hl, hwhole, hlive, hnodup, hrest =>
      closePlain_orphaned hl hlive hnodup hrest hwhole
  | .buffer self mInnerStream, w, rest, hl, hwhole, hlive, hnodup, hrest => by
      have hlive' : w.live = Option.elim self 0 ({·}) + (mInnerStream.held + rest) :=
        hlive.trans (add_assoc _ _ _)
      have hinner := closed_held hl hwhole.2
      -- first the buffered stream, over which nothing is
      have hself : (w.close .buffer self).orphaned = w.orphaned := by
        refine closeSelf_orphaned hlive' hnodup (hinner.add hrest) fun s hs p hp hps hpt => ?_
        obtain ⟨t, ht, hover⟩ := hwhole.1 s hs (hps ▸ hl.kind p hp)
        have hts : t = s := (hl.one _ hover p hp hps.symm).trans hpt
        subst hs
        rw [hlive'] at hnodup
        refine (Multiset.nodup_cons.mp hnodup).1 (Multiset.mem_add.mpr (.inl ?_))
        exact hts ▸ mem_held ht
      -- then the one below
      obtain ⟨hbelow, -⟩ := close_live (k := .buffer) hlive'
      have hbuffering := (close_count .buffer self w).2
      refine (destruct_orphaned (o := mInnerStream) ?_ ?_ hbelow ?_ ?_).trans hself
      · rwa [hbuffering]
      · rw [hbuffering]
        exact hwhole.2
      · rw [hbelow]
        exact Multiset.nodup_of_le (Multiset.le_add_left _ _) (hlive' ▸ hnodup)
      · rwa [hbuffering]

end Towers

/-! ## Along a run -/

/-- No buffered stream is moved or overwritten by the base class alone, and
none is made over a reference. -/
def KeepsTowers (w : World) : Act → Prop
  | .bufferRef _ created => created = false
  | .move c j => c = .base → ∀ old, w.objs[j]? = some old → old.Plain
  | .assign i j => ∀ this old, w.objs[i]? = some this → w.objs[j]? = some old →
      this.cls = .base → old.Plain
  | .assignBase i j => ∀ this old, w.objs[i]? = some this → w.objs[j]? = some old →
      this.Plain ∧ old.Plain
  | _ => True

/-- Nothing is moved into an object of the base class, and nothing is
overwritten. -/
def Careful (w : World) : Act → Prop
  | .move c j => c = .base → ∀ old, w.objs[j]? = some old → old.self = none
  | .assign i j => ∀ this old, w.objs[i]? = some this → w.objs[j]? = some old →
      this.held = 0 ∧ (this.cls = .base → old.self = none)
  | .assignBase i j => ∀ this old, w.objs[i]? = some this → w.objs[j]? = some old →
      this.self = none ∧ (this.cls = .base → old.self = none)
  | _ => True

section Runs

variable {w w' : World} {a : Act}

theorem Towers.held (h : Towers w) : ∀ o ∈ w.objs, Closed w.buffering o.held :=
  fun o ho => closed_held h.layered (h.whole o ho)

/-- A new stream that buffers none. -/
theorem Towers.create {k : StreamKind} {obj : Option CStream → Obj} (h : Towers w)
    (hobj : (obj (some (k, w.count))).Whole w.buffering) : Towers (w.create k obj) where
  layered := h.layered
  given p hp := Nat.lt_succ_of_lt (h.given p hp)
  whole := List.forall_mem_cons.mpr ⟨hobj, h.whole⟩
  lost := h.lost
  proper := h.proper

theorem Towers.buffer {i : Nat} {innerStream : Obj} {t : CStream} (h : Towers w)
    (hw : Accounted w) (hat : w.objs[i]? = some innerStream) (hself : innerStream.self = some t) :
    Towers (World.create .buffer (.buffer · innerStream) { w with
      buffering := ((.buffer, w.count), t) :: w.buffering
      objs := w.objs.set i innerStream.moved }) where
  layered := by
    refine ⟨List.forall_mem_cons.mpr ⟨rfl, h.layered.kind⟩, ?_⟩
    intro p hp q hq heq
    rcases List.mem_cons.mp hp with rfl | hp <;> rcases List.mem_cons.mp hq with rfl | hq
    · rfl
    · exact absurd ((congrArg Prod.snd heq).trans_lt (h.given q hq)) (Nat.lt_irrefl _)
    · exact absurd ((congrArg Prod.snd heq.symm).trans_lt (h.given p hp)) (Nat.lt_irrefl _)
    · exact h.layered.one p hp q hq heq
  given := List.forall_mem_cons.mpr
    ⟨Nat.lt_succ_self _, fun p hp => Nat.lt_succ_of_lt (h.given p hp)⟩
  whole := by
    refine List.forall_mem_cons.mpr ⟨⟨fun s hs _ => ?_, ?_⟩,
      forall_set (fun o ho => (h.whole o ho).more) (moved_whole _)⟩
    · exact ⟨t, hself, Option.some.inj hs ▸ List.mem_cons_self⟩
    · exact (h.whole _ (List.mem_of_getElem? hat)).more
  lost := by
    refine h.lost.more fun hmem => Nat.lt_irrefl w.count (hw.given (.buffer, w.count) ?_)
    rw [hw.live]
    exact Multiset.mem_add.mpr (.inr hmem)
  proper := h.proper

theorem Towers.step (h : Towers w) (hw : Accounted w) (hkeeps : KeepsTowers w a)
    (hs : Stepped w a w') : Towers w' := by
  cases hs with
  | thrown => exact h
  | file | http => exact h.create fun _ hs => by cases hs; nofun
  | bufferRef => cases hkeeps
  | buffer i innerStream t hat hself => exact h.buffer hw hat hself
  | move c j old new left hat hmove =>
      obtain ⟨hnew, hleft⟩ := move_whole hmove (fun hc => hkeeps hc old hat)
        (h.whole _ (List.mem_of_getElem? hat))
      exact ⟨h.layered, h.given, List.forall_mem_cons.mpr ⟨hnew, forall_set h.whole hleft⟩, h.lost,
        h.proper⟩
  | assign i j this old new left hi hj hmove =>
      obtain ⟨hnew, hleft⟩ := move_whole hmove (hkeeps this old hi hj)
        (h.whole _ (List.mem_of_getElem? hj))
      exact ⟨h.layered, h.given, forall_set (forall_set h.whole hnew) hleft,
        (h.held this (List.mem_of_getElem? hi)).add h.lost, h.proper⟩
  | assignBase i j this old hi hj =>
      obtain ⟨hthis, hold⟩ := hkeeps this old hi hj
      have hnew := withSelf_whole (h.whole _ (List.mem_of_getElem? hi)) hold
      have hleft := sliced_whole (h.whole _ (List.mem_of_getElem? hj))
      exact ⟨h.layered, h.given, forall_set (forall_set h.whole hnew) hleft,
        (Closed.plain h.layered hthis).add h.lost, h.proper⟩
  | destroy i this hi =>
      have hmem := List.mem_of_getElem? hi
      obtain ⟨hcount, hbuffering⟩ := destruct_count this w
      have hrest : Closed w.buffering (heldBy (w.objs.eraseIdx i) + w.lost) :=
        (closed_heldBy fun o ho => h.held o (List.mem_of_mem_eraseIdx ho)).add h.lost
      refine ⟨?_, ?_, ?_, ?_, ?_⟩
      · dsimp only
        rw [hbuffering]
        exact h.layered
      · dsimp only
        rw [hbuffering, hcount]
        exact h.given
      · dsimp only
        rw [hbuffering]
        exact fun o ho => h.whole o (List.mem_of_mem_eraseIdx ho)
      · dsimp only
        rw [hbuffering]
        exact (closed_abandoned h.layered (h.whole _ hmem)).add h.lost
      · exact (destruct_orphaned h.layered (h.whole _ hmem) (hw.destroyed hi) hw.nodup
          hrest).trans h.proper

/-- What an object does not destroy it has taken from another class. -/
theorem withSelf_abandoned {self : Option CStream} {o : Obj} (h : o.abandoned = 0)
    (hself : o.cls = .base → self = none) : (o.withSelf self).abandoned = 0 := by
  cases o with
  | base =>
      obtain rfl := hself rfl
      rfl
  | _ => exact h

theorem moved_abandoned (o : Obj) : o.moved.abandoned = 0 :=
  Multiset.le_zero.mp ((abandoned_le _).trans_eq (moved_held _))

theorem move_abandoned {c : Cls} {old new left : Obj} (h : old.move c = some (new, left))
    (hplain : c = .base → old.self = none) (hold : old.abandoned = 0) :
    new.abandoned = 0 ∧ left.abandoned = 0 := by
  rcases move_cases h with ⟨hc, rfl, rfl⟩ | ⟨-, rfl, rfl⟩
  · refine ⟨?_, withSelf_abandoned hold fun _ => rfl⟩
    rw [hplain hc]
    rfl
  · exact ⟨hold, moved_abandoned _⟩

theorem careful_step (h : (∀ o ∈ w.objs, o.abandoned = 0) ∧ w.lost = 0) (hcareful : Careful w a)
    (hs : Stepped w a w') : (∀ o ∈ w'.objs, o.abandoned = 0) ∧ w'.lost = 0 := by
  obtain ⟨hobjs, hlost⟩ := h
  cases hs with
  | thrown => exact ⟨hobjs, hlost⟩
  | file | http | bufferRef => exact ⟨List.forall_mem_cons.mpr ⟨rfl, hobjs⟩, hlost⟩
  | buffer i innerStream t hat hself =>
      have hinner : innerStream.abandoned = 0 := hobjs _ (List.mem_of_getElem? hat)
      exact ⟨List.forall_mem_cons.mpr ⟨hinner, forall_set hobjs (moved_abandoned _)⟩, hlost⟩
  | move c j old new left hat hmove =>
      obtain ⟨hnew, hleft⟩ := move_abandoned hmove (fun hc => hcareful hc old hat)
        (hobjs _ (List.mem_of_getElem? hat))
      exact ⟨List.forall_mem_cons.mpr ⟨hnew, forall_set hobjs hleft⟩, hlost⟩
  | assign i j this old new left hi hj hmove =>
      obtain ⟨hempty, hbase⟩ := hcareful this old hi hj
      obtain ⟨hnew, hleft⟩ := move_abandoned hmove hbase (hobjs _ (List.mem_of_getElem? hj))
      refine ⟨forall_set (forall_set hobjs hnew) hleft, ?_⟩
      show this.held + w.lost = 0
      rw [hempty, hlost, zero_add]
  | assignBase i j this old hi hj =>
      obtain ⟨hempty, hbase⟩ := hcareful this old hi hj
      have hnew := withSelf_abandoned (hobjs _ (List.mem_of_getElem? hi)) hbase
      have hleft := withSelf_abandoned (hobjs _ (List.mem_of_getElem? hj)) fun _ => rfl
      refine ⟨forall_set (forall_set hobjs hnew) hleft, ?_⟩
      show Option.elim this.self 0 _ + w.lost = 0
      rw [hempty, hlost]
      rfl
  | destroy i this hi =>
      refine ⟨fun o ho => hobjs o (List.mem_of_mem_eraseIdx ho), ?_⟩
      show this.abandoned + w.lost = 0
      rw [hobjs _ (List.mem_of_getElem? hi), hlost, zero_add]

/-- **The C streams of the C++ objects are accounted for.** In every run that
constructs, moves, assigns and destroys objects of the classes, also through
the base class, nested to any depth, with any constructor throwing: no C
stream is destroyed twice, and those that live are what the objects hold and
what is lost, to move assignments and in objects of the base class. One is
destroyed by the function of another kind just where an object is destroyed
that has it, and not where the base class assigns to each object only
streams of its kind. A buffered stream always has the one below it, in a run
in which the base class does not move or overwrite one and none is made over
a reference; and nothing is lost in one that moves nothing into an object
of the base class and assigns only to objects that hold nothing. -/
theorem objects_accounted (h : objects.Reach Lts.Any w) :
    (w.twice = false ∧ w.live = heldBy w.objs + w.lost)
      ∧ ((w.mismatched = false ↔ objects.Reach DestroysFitting w)
        ∧ (objects.Reach KeepsKinds w → w.mismatched = false))
      ∧ (objects.Reach KeepsTowers w →
        w.orphaned = false ∧ ∀ p ∈ w.buffering, p.1 ∈ w.live → p.2 ∈ w.live)
      ∧ (objects.Reach Careful w → w.lost = 0) := by
  have hw := accounted_of_reach h
  have hkinds := mismatched_iff h
  refine ⟨⟨hw.once, hw.live⟩,
    ⟨hkinds, fun hkeeps => hkinds.mpr (destroysFitting_of_keepsKinds hkeeps).1⟩,
    fun hkeeps => ?_, fun hcareful => ?_⟩
  · have ht : Towers w := by
      refine hkeeps.invariant (I := Towers) ?_ ?_
      · rintro _ rfl
        exact ⟨⟨(fun _ h => by cases h), (fun _ h => by cases h)⟩, (fun _ h => by cases h),
          (fun _ h => by cases h), .zero, rfl⟩
      · intro w a w' hr hi hok hs
        exact hi.step (accounted_of_reach (hr.mono fun _ _ _ => trivial)) hok (objectsStep_cases hs)
    refine ⟨ht.proper, ?_⟩
    rw [hw.live]
    exact (closed_heldBy ht.held).add ht.lost
  · refine (hcareful.invariant (I := fun w => (∀ o ∈ w.objs, o.abandoned = 0) ∧ w.lost = 0)
      ?_ ?_).2
    · rintro _ rfl
      exact ⟨(fun _ h => by cases h), rfl⟩
    · intro w a w' _ hi hok hs
      exact careful_step hi hok (objectsStep_cases hs)

end Runs

/-- A buffered file is moved, and all objects are destroyed. -/
theorem objects_accounted_run :
    ∃ w, objects.run [.file true, .buffer 0 true, .move (.buffer .file) 0, .destroy 1,
        .destroy 0, .destroy 0] ⟨0, 0, [], false, false, false, [], 0⟩ = some w
      ∧ w.live = 0 ∧ w.twice = false ∧ w.mismatched = false ∧ w.orphaned = false := by
  let acts : List Act := [.file true, .buffer 0 true, .move (.buffer .file) 0, .destroy 1,
    .destroy 0, .destroy 0]
  let w₀ : World := ⟨0, 0, [], false, false, false, [], 0⟩
  have hrun : (objects.run acts w₀).map (·.objs.length) = some 0 := by decide
  obtain ⟨w, hw, hobjs⟩ := Option.map_eq_some_iff.mp hrun
  have hok : ∀ a ∈ acts, ∀ w, KeepsKinds w a ∧ KeepsTowers w a ∧ Careful w a := by
    intro a ha w
    simp only [acts, List.mem_cons, List.not_mem_nil, or_false] at ha
    rcases ha with rfl | rfl | rfl | rfl | rfl | rfl <;>
      exact ⟨trivial, by first | trivial | nofun, by first | trivial | nofun⟩
  have hkinds : objects.Reach KeepsKinds w := .run (fun a ha w => (hok a ha w).1) (.init rfl) hw
  have hkeeps : objects.Reach KeepsTowers w := .run (fun a ha w => (hok a ha w).2.1) (.init rfl) hw
  have hcareful : objects.Reach Careful w := .run (fun a ha w => (hok a ha w).2.2) (.init rfl) hw
  obtain ⟨⟨honce, hlive⟩, ⟨-, hmismatched⟩, htowers, hlost⟩ :=
    objects_accounted (hkinds.mono fun _ _ _ => trivial)
  refine ⟨w, hw, ?_, honce, hmismatched hkinds, (htowers hkeeps).1⟩
  rw [hlive, hlost hcareful, List.length_eq_zero_iff.mp hobjs]
  rfl

/-- The base class moves an HTTP stream into the object of a file. -/
example : (objects.run [.http true, .file true, .assignBase 0 1, .destroy 0]
    ⟨0, 0, [], false, false, false, [], 0⟩).map (fun w => (w.mismatched, w.live, w.lost))
      = some (true, {(.file, 1)}, {(.file, 1)}) := by
  decide

end Cxx

end Streamlike
