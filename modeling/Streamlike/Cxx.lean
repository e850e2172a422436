import Mathlib.Tactic.Abel
import Streamlike.Lts
import Streamlike.Owned

/-!
# The C++ classes

An object of `StreamlikeFile`, `StreamlikeHttp` or `StreamlikeBuffer<T>` has
a pointer to a C stream, which its constructor creates and its destructor
destroys, and a `StreamlikeBuffer<T>` has the object that it buffers inside
it, or a reference to it where `T` is one. The moves of `Streamlike` take
the pointer and leave a null pointer, and the classes move member by member.
Both moves of `Streamlike` are public, so they can be applied to the part
of an object that is of the base class.

What is live is what the objects hold and what is lost
(`accounted_of_reach`): the move assignment overwrites a pointer without a
look at it, and an object of the base class itself destroys nothing. Nor is
any stream destroyed twice; one is destroyed by the wrong function just
where an object is destroyed to which the base class has assigned a stream
of another kind (`mismatched_iff`).
-/

namespace Streamlike

namespace Cxx

inductive StreamKind
  | file
  | http
  | buffer
deriving DecidableEq

/-- A C stream. -/
abbrev CStream := Thing StreamKind

/-- `Streamlike`, `StreamlikeFile`, `StreamlikeHttp`, `StreamlikeBuffer<T>`, and
`StreamlikeBuffer<T&>` of any `T`. -/
inductive Cls
  | base
  | file
  | http
  | buffer (T : Cls)
  | bufferRef
deriving DecidableEq

/-- Whether the move assignment is not deleted, as that of a class with a
reference among its members is. -/
def Cls.assignable : Cls → Bool
  | .base | .file | .http => true
  | .buffer T => T.assignable
  | .bufferRef => false

/-- An object, with the pointer `self`. The reference of a
`StreamlikeBuffer<T&>` is not used once the object has been made. -/
inductive Obj
  | base (self : Option CStream)
  | file (self : Option CStream)
  | http (self : Option CStream)
  | buffer (self : Option CStream) (mInnerStream : Obj)
  | bufferRef (self : Option CStream)

namespace Obj

def cls : Obj → Cls
  | .base _ => .base
  | .file _ => .file
  | .http _ => .http
  | .buffer _ mInnerStream => .buffer mInnerStream.cls
  | .bufferRef _ => .bufferRef

def self : Obj → Option CStream
  | .base self | .file self | .http self | .buffer self _ | .bufferRef self => self

/-- After `self = ..` in `Streamlike` alone. -/
def withSelf (self : Option CStream) : Obj → Obj
  | .base _ => .base self
  | .file _ => .file self
  | .http _ => .http self
  | .buffer _ mInnerStream => .buffer self mInnerStream
  | .bufferRef _ => .bufferRef self

/-- After `old.self = nullptr` in `Streamlike` alone. -/
def sliced (old : Obj) : Obj := old.withSelf none

/-- After a move of all members. -/
def moved : Obj → Obj
  | .base _ => .base none
  | .file _ => .file none
  | .http _ => .http none
  | .buffer _ mInnerStream => .buffer none mInnerStream.moved
  | .bufferRef _ => .bufferRef none

/-- What an object of class `c` becomes when `old` is moved into it, and what
is left of `old`. Every object can be moved into one of the base class. -/
def move (c : Cls) (old : Obj) : Option (Obj × Obj) :=
  if c = .base then some (.base old.self, old.sliced)
  else if old.cls = c then some (old, old.moved) else none

/-- The same for an object that is assigned to. -/
def assign (this old : Obj) : Option (Obj × Obj) :=
  if this.cls.assignable then old.move this.cls else none

def held : Obj → Multiset CStream
  | .base self | .file self | .http self | .bufferRef self => Option.elim self 0 ({·})
  | .buffer self mInnerStream => Option.elim self 0 ({·}) + mInnerStream.held

/-- What its destructor does not destroy. -/
def abandoned : Obj → Multiset CStream
  | .base self => Option.elim self 0 ({·})
  | .file _ | .http _ | .bufferRef _ => 0
  | .buffer _ mInnerStream => mInnerStream.abandoned

end Obj

/-- `buffering` are the buffered streams that have been created, each with the
stream below it. The flags say that a stream has been destroyed that was not
live, by the function of another kind (which is undefined; the run goes on
as if it had been the right one), or with a live buffered stream over it. -/
structure World where
  count : Nat
  live : Multiset CStream
  buffering : List (CStream × CStream)
  twice : Bool
  mismatched : Bool
  orphaned : Bool
  objs : List Obj
  lost : Multiset CStream

def heldBy (objs : List Obj) : Multiset CStream := (objs.map Obj.held).sum

namespace World

/-- A constructor that gets a C stream. -/
def create (k : StreamKind) (obj : Option CStream → Obj) (w : World) : World :=
  { w with
    count := w.count + 1
    live := {(k, w.count)} + w.live
    objs := obj (some (k, w.count)) :: w.objs }

/-- `sl_fclose`, `sl_http_destroy` or `sl_buffer_destroy`, called for a pointer
that is not null. -/
def close (k : StreamKind) (self : Option CStream) (w : World) : World :=
  match self with
  | none => w
  | some s => { w with
      live := w.live.erase s
      twice := w.twice || decide (s ∉ w.live)
      mismatched := w.mismatched || decide (s.1 ≠ k)
      orphaned := w.orphaned || w.buffering.any fun p => p.2 = s ∧ p.1 ∈ w.live }

/-- The destructors. The one of `StreamlikeBuffer<T>` runs before that of the
member, and that of a reference does nothing. -/
def destruct : Obj → World → World
  | .base _, w => w
  | .file self, w => w.close .file self
  | .http self, w => w.close .http self
  | .buffer self mInnerStream, w => destruct mInnerStream (w.close .buffer self)
  | .bufferRef self, w => w.close .buffer self

end World

inductive Act
  -- StreamlikeFile(path, mode) and StreamlikeFile(fp)
  | file (opened : Bool)
  | http (created : Bool)
  -- StreamlikeBuffer<T>(innerStream) from the i-th object
  | buffer (i : Nat) (created : Bool)
  -- StreamlikeBuffer<T&>(innerStream), with a reference to the i-th object
  | bufferRef (i : Nat) (created : Bool)
  -- the move constructor of a class
  | move (c : Cls) (j : Nat)
  -- *this = std::move(old)
  | assign (i j : Nat)
  -- static_cast<Streamlike&>(*this) = std::move(old)
  | assignBase (i j : Nat)
  | destroy (i : Nat)

/-- A constructor that gets a null pointer throws, and leaves everything. -/
def objectsStep (a : Act) (w : World) : Option World :=
  match a with
  | .file opened => some (if opened then w.create .file .file else w)
  | .http created => some (if created then w.create .http .http else w)
  | .buffer i created =>
      match w.objs[i]? with
      | none => none
      | some innerStream =>
          match innerStream.self with
          | none => some w
          | some t =>
              if created then
                some (World.create .buffer (.buffer · innerStream) { w with
                  buffering := ((.buffer, w.count), t) :: w.buffering
                  objs := w.objs.set i innerStream.moved })
              else some w
  | .bufferRef i created =>
      match w.objs[i]? with
      | none => none
      | some innerStream =>
          match innerStream.self with
          | none => some w
          | some t =>
              if created then
                some (World.create .buffer .bufferRef { w with
                  buffering := ((.buffer, w.count), t) :: w.buffering })
              else some w
  | .move c j =>
      match w.objs[j]?.bind (Obj.move c) with
      | none => none
      | some (new, old) => some { w with objs := new :: w.objs.set j old }
  | .assign i j =>
      match w.objs[i]? with
      | none => none
      | some this =>
          match w.objs[j]?.bind this.assign with
          | none => none
          | some (new, old) => some { w with
              objs := (w.objs.set i new).set j old
              lost := this.held + w.lost }
  | .assignBase i j =>
      match w.objs[i]?, w.objs[j]? with
      | some this, some old => some { w with
          objs := (w.objs.set i (this.withSelf old.self)).set j old.sliced
          lost := Option.elim this.self 0 ({·}) + w.lost }
      | _, _ => none
  | .destroy i =>
      match w.objs[i]? with
      | none => none
      | some this => some { w.destruct this with
          objs := w.objs.eraseIdx i
          lost := this.abandoned + w.lost }

def objects : Lts World Act where
  init w := w = ⟨0, 0, [], false, false, false, [], 0⟩
  step := objectsStep

/-! ## What a step does -/

def Act.creates : Act → Bool
  | .file _ | .http _ | .buffer _ _ | .bufferRef _ _ => true
  | .move _ _ | .assign _ _ | .assignBase _ _ | .destroy _ => false

inductive Stepped (w : World) : Act → World → Prop
  | thrown (a : Act) (creates : a.creates = true) : Stepped w a w
  | file : Stepped w (.file true) (w.create .file .file)
  | http : Stepped w (.http true) (w.create .http .http)
  | buffer (i : Nat) (innerStream : Obj) (t : CStream) (at_i : w.objs[i]? = some innerStream)
      (self : innerStream.self = some t) :
      Stepped w (.buffer i true) (World.create .buffer (.buffer · innerStream) { w with
        buffering := ((.buffer, w.count), t) :: w.buffering
        objs := w.objs.set i innerStream.moved })
  | bufferRef (i : Nat) (innerStream : Obj) (t : CStream) (at_i : w.objs[i]? = some innerStream)
      (self : innerStream.self = some t) :
      Stepped w (.bufferRef i true) (World.create .buffer .bufferRef { w with
        buffering := ((.buffer, w.count), t) :: w.buffering })
  | move (c : Cls) (j : Nat) (old new left : Obj) (at_j : w.objs[j]? = some old)
      (moved : old.move c = some (new, left)) :
      Stepped w (.move c j) { w with objs := new :: w.objs.set j left }
  | assign (i j : Nat) (this old new left : Obj) (at_i : w.objs[i]? = some this)
      (at_j : w.objs[j]? = some old) (moved : old.move this.cls = some (new, left)) :
      Stepped w (.assign i j) { w with
        objs := (w.objs.set i new).set j left
        lost := this.held + w.lost }
  | assignBase (i j : Nat) (this old : Obj) (at_i : w.objs[i]? = some this)
      (at_j : w.objs[j]? = some old) :
      Stepped w (.assignBase i j) { w with
        objs := (w.objs.set i (this.withSelf old.self)).set j old.sliced
        lost := Option.elim this.self 0 ({·}) + w.lost }
  | destroy (i : Nat) (this : Obj) (at_i : w.objs[i]? = some this) :
      Stepped w (.destroy i) { w.destruct this with
        objs := w.objs.eraseIdx i
        lost := this.abandoned + w.lost }

theorem objectsStep_cases {a : Act} {w w' : World} (h : objectsStep a w = some w') :
    Stepped w a w' := by
  cases a with
  | file opened =>
      obtain rfl := Option.some.inj h
      cases opened with
      | false => exact .thrown _ rfl
      | true => exact .file
  | http created =>
      obtain rfl := Option.some.inj h
      cases created with
      | false => exact .thrown _ rfl
      | true => exact .http
  | buffer i created =>
      rw [objectsStep] at h
      split at h
      · cases h
      · next innerStream hat =>
        split at h
        · exact Option.some.inj h ▸ .thrown _ rfl
        · next t hself =>
          cases created with
          | false => exact Option.some.inj h ▸ .thrown _ rfl
          | true => exact Option.some.inj h ▸ .buffer i innerStream t hat hself
  | bufferRef i created =>
      rw [objectsStep] at h
      split at h
      · cases h
      · next innerStream hat =>
        split at h
        · exact Option.some.inj h ▸ .thrown _ rfl
        · next t hself =>
          cases created with
          | false => exact Option.some.inj h ▸ .thrown _ rfl
          | true => exact Option.some.inj h ▸ .bufferRef i innerStream t hat hself
  | move c j =>
      rw [objectsStep] at h
      split at h
      · cases h
      · next new left hmoved =>
        obtain ⟨old, hat, hmove⟩ := Option.bind_eq_some_iff.mp hmoved
        exact Option.some.inj h ▸ .move c j old new left hat hmove
  | assign i j =>
      rw [objectsStep] at h
      split at h
      · cases h
      · next this hthis =>
        split at h
        · cases h
        · next new left hmoved =>
          obtain ⟨old, hat, hassign⟩ := Option.bind_eq_some_iff.mp hmoved
          have hmove := (Option.ite_none_right_eq_some.mp hassign).2
          exact Option.some.inj h ▸ .assign i j this old new left hthis hat hmove
  | assignBase i j =>
      rw [objectsStep] at h
      split at h
      · next this old hi hj => exact Option.some.inj h ▸ .assignBase i j this old hi hj
      · cases h
  | destroy i =>
      rw [objectsStep] at h
      split at h
      · cases h
      · next this hthis => exact Option.some.inj h ▸ .destroy i this hthis

/-! ## What is live -/

section Objects

variable {o this old new left : Obj} {c : Cls} {self : Option CStream}

@[simp] theorem withSelf_self (self : Option CStream) (o : Obj) :
    (o.withSelf self).self = self := by
  cases o <;> rfl

@[simp] theorem withSelf_cls (self : Option CStream) (o : Obj) :
    (o.withSelf self).cls = o.cls := by
  cases o <;> rfl

/-- Its own stream, and what is inside. -/
theorem withSelf_held (self : Option CStream) (o : Obj) :
    (o.withSelf self).held = Option.elim self 0 ({·}) + o.sliced.held := by
  cases o with
  | buffer _ mInnerStream =>
      show _ + mInnerStream.held = _ + (0 + mInnerStream.held)
      rw [zero_add]
  | _ => exact (add_zero _).symm

theorem self_held (o : Obj) : Option.elim o.self 0 ({·}) + o.sliced.held = o.held := by
  rw [← withSelf_held]
  cases o <;> rfl

theorem moved_held : ∀ o : Obj, o.moved.held = 0
  | .base _ | .file _ | .http _ | .bufferRef _ => rfl
  | .buffer _ mInnerStream => (zero_add _).trans (moved_held mInnerStream)

/-- A move into the base class, or of all members. -/
theorem move_cases (h : old.move c = some (new, left)) :
    (c = .base ∧ new = .base old.self ∧ left = old.sliced)
      ∨ (c ≠ .base ∧ new = old ∧ left = old.moved) := by
  unfold Obj.move at h
  split at h
  · next hc =>
    obtain ⟨rfl, rfl⟩ := Prod.mk.inj (Option.some.inj h)
    exact .inl ⟨hc, rfl, rfl⟩
  · next hc =>
    split at h
    · obtain ⟨rfl, rfl⟩ := Prod.mk.inj (Option.some.inj h)
      exact .inr ⟨hc, rfl, rfl⟩
    · cases h

/-- A move only hands over. -/
theorem move_held (h : old.move c = some (new, left)) : new.held + left.held = old.held := by
  rcases move_cases h with ⟨-, rfl, rfl⟩ | ⟨-, rfl, rfl⟩
  · exact self_held old
  · rw [moved_held, add_zero]

/-- An object that is moved into itself loses its pointers. -/
theorem move_self_held (h : this.move this.cls = some (new, left)) : left.held = 0 := by
  rcases move_cases h with ⟨hcls, -, rfl⟩ | ⟨-, -, rfl⟩
  · cases this with
    | base => rfl
    | file | http | buffer | bufferRef => cases hcls
  · exact moved_held this

theorem forall_set {P : Obj → Prop} {objs : List Obj} {i : Nat} (h : ∀ o ∈ objs, P o)
    (ho : P o) : ∀ o' ∈ objs.set i o, P o' := by
  intro o' hmem
  rcases List.mem_or_eq_of_mem_set hmem with hmem | rfl
  · exact h o' hmem
  · exact ho

end Objects

section Closing

variable {w : World} {k : StreamKind} {rest : Multiset CStream} {o : Obj}
  {self : Option CStream}

theorem close_live (hlive : w.live = Option.elim self 0 ({·}) + rest) :
    (w.close k self).live = rest ∧ (w.close k self).twice = w.twice := by
  cases self with
  | none => exact ⟨hlive.trans (zero_add _), rfl⟩
  | some s =>
      have hlive : w.live = {s} + rest := hlive
      refine ⟨?_, ?_⟩
      · show w.live.erase s = rest
        rw [hlive, Multiset.singleton_add, Multiset.erase_cons_head]
      · have hmem : s ∈ w.live := by
          rw [hlive]
          exact Multiset.mem_add.mpr (.inl (Multiset.mem_singleton_self _))
        show (w.twice || decide (s ∉ w.live)) = w.twice
        rw [decide_eq_false (not_not.mpr hmem), Bool.or_false]

theorem close_mismatched (k : StreamKind) (self : Option CStream) (w : World) :
    (w.close k self).mismatched = false
      ↔ w.mismatched = false ∧ ∀ s, self = some s → s.1 = k := by
  cases self with
  | none => exact (and_iff_left fun _ h => by cases h).symm
  | some s =>
      show (w.mismatched || decide (s.1 ≠ k)) = false ↔ _
      rw [Bool.or_eq_false_iff, decide_eq_false_iff_not, not_not]
      exact and_congr_right' ⟨fun h _ hs => Option.some.inj hs ▸ h, fun h => h s rfl⟩

theorem close_count (k : StreamKind) (self : Option CStream) (w : World) :
    (w.close k self).count = w.count ∧ (w.close k self).buffering = w.buffering := by
  cases self <;> exact ⟨rfl, rfl⟩

theorem destruct_count : ∀ (o : Obj) (w : World),
    (w.destruct o).count = w.count ∧ (w.destruct o).buffering = w.buffering
  | .base _, _ => ⟨rfl, rfl⟩
  | .file self, w => close_count .file self w
  | .http self, w => close_count .http self w
  | .bufferRef self, w => close_count .buffer self w
  | .buffer self mInnerStream, w => by
      obtain ⟨hcount, hbuffering⟩ := close_count .buffer self w
      obtain ⟨hcount', hbuffering'⟩ := destruct_count mInnerStream (w.close .buffer self)
      exact ⟨hcount'.trans hcount, hbuffering'.trans hbuffering⟩

/-- A destructor destroys what the object holds, but what is in an object of
the base class. -/
theorem destruct_live : ∀ {o : Obj} {w : World}, w.live = o.held + rest →
    (w.destruct o).live = o.abandoned + rest ∧ (w.destruct o).twice = w.twice
  | .base _, _, hlive => ⟨hlive, rfl⟩
  | .file _, _, hlive | .http _, _, hlive | .bufferRef _, _, hlive => by
      obtain ⟨hrest, htwice⟩ := close_live hlive
      exact ⟨hrest.trans (zero_add _).symm, htwice⟩
  | .buffer self mInnerStream, w, hlive => by
      obtain ⟨hrest, htwice⟩ := close_live (k := .buffer) (hlive.trans (add_assoc _ _ _))
      obtain ⟨hrest', htwice'⟩ := destruct_live hrest
      exact ⟨hrest', htwice'.trans htwice⟩

theorem abandoned_le : ∀ o : Obj, o.abandoned ≤ o.held
  | .base _ => le_refl _
  | .file _ | .http _ | .bufferRef _ => Multiset.zero_le _
  | .buffer _ mInnerStream => (abandoned_le mInnerStream).trans (Multiset.le_add_left _ _)

end Closing

/-- The ledger. -/
structure Accounted (w : World) : Prop where
  live : w.live = heldBy w.objs + w.lost
  nodup : w.live.Nodup
  given : ∀ s ∈ w.live, s.2 < w.count
  once : w.twice = false

section Steps

variable {w w' : World} {a : Act}

theorem heldBy_cons (o : Obj) (objs : List Obj) : heldBy (o :: objs) = o.held + heldBy objs := by
  rw [heldBy, List.map_cons, List.sum_cons]
  rfl

/-- A new object takes what is moved out of the `j`-th one. -/
theorem heldBy_move {objs : List Obj} {j : Nat} {old new left : Obj} (hat : objs[j]? = some old)
    (h : new.held + left.held = old.held) :
    new.held + heldBy (objs.set j left) = heldBy objs := by
  rw [heldBy, heldBy, sum_set Obj.held hat left, sum_eraseIdx Obj.held hat, ← add_assoc, h]

/-- An object takes what is moved out of the `j`-th one, which may be itself,
and `out` is overwritten. -/
theorem heldBy_assign {objs : List Obj} {i j : Nat} {this old new left : Obj}
    {out : Multiset CStream} (hi : objs[i]? = some this) (hj : objs[j]? = some old)
    (h : out + (new.held + left.held) = this.held + old.held)
    (hself : i = j → out + left.held = this.held) :
    out + heldBy ((objs.set i new).set j left) = heldBy objs := by
  by_cases hij : i = j
  · subst hij
    rw [List.set_set, heldBy, heldBy, sum_set Obj.held hi left, sum_eraseIdx Obj.held hi,
      ← add_assoc, hself rfl]
  · have hj' : (objs.set i new)[j]? = some old := by rwa [List.getElem?_set_ne hij]
    have hnew := (sum_eraseIdx Obj.held hj').symm.trans (sum_set Obj.held hi new)
    rw [heldBy, heldBy, sum_set Obj.held hj' left, sum_eraseIdx Obj.held hi]
    refine add_left_cancel (a := old.held) ?_
    set kept := (((objs.set i new).eraseIdx j).map Obj.held).sum
    set others := ((objs.eraseIdx i).map Obj.held).sum
    calc old.held + (out + (left.held + kept))
        = out + left.held + (old.held + kept) := by abel
      _ = out + left.held + (new.held + others) := by rw [hnew]
      _ = out + (new.held + left.held) + others := by abel
      _ = old.held + (this.held + others) := by rw [h]; abel

theorem Accounted.init : Accounted ⟨0, 0, [], false, false, false, [], 0⟩ where
  live := rfl
  nodup := Multiset.nodup_zero
  given := fun _ h => absurd h (Multiset.notMem_zero _)
  once := rfl

/-- A new C stream, for an object that takes `m` too. -/
theorem Accounted.create {k : StreamKind} {obj : Option CStream → Obj} {m : Multiset CStream}
    (hlive : w.live = m + (heldBy w.objs + w.lost)) (hnodup : w.live.Nodup)
    (hgiven : ∀ s ∈ w.live, s.2 < w.count) (honce : w.twice = false)
    (hobj : (obj (some (k, w.count))).held = {(k, w.count)} + m) :
    Accounted (w.create k obj) where
  live := by
    show {(k, w.count)} + w.live = heldBy (_ :: w.objs) + w.lost
    rw [heldBy_cons, hobj, hlive, add_assoc, add_assoc]
  nodup := by
    refine Multiset.nodup_cons.mpr ⟨fun hmem => ?_, hnodup⟩
    exact Nat.lt_irrefl _ (hgiven _ hmem)
  given := by
    intro s hs
    rcases Multiset.mem_cons.mp hs with rfl | hs
    · exact Nat.lt_succ_self _
    · exact Nat.lt_succ_of_lt (hgiven s hs)
  once := honce

/-- What is destroyed with an object, and what stays. -/
theorem Accounted.destroyed (h : Accounted w) {i : Nat} {this : Obj}
    (hi : w.objs[i]? = some this) :
    w.live = this.held + (heldBy (w.objs.eraseIdx i) + w.lost) := by
  rw [h.live, ← add_assoc]
  exact congrArg (· + w.lost) (sum_eraseIdx Obj.held hi)

theorem Accounted.step (h : Accounted w) (hs : Stepped w a w') : Accounted w' := by
  cases hs with
  | thrown => exact h
  | file | http | bufferRef =>
      exact .create (m := 0) (h.live.trans (zero_add _).symm) h.nodup h.given h.once
        (add_zero _).symm
  | buffer i innerStream t hat hself =>
      refine .create (m := innerStream.held) ?_ h.nodup h.given h.once rfl
      show w.live = innerStream.held + (heldBy (w.objs.set i innerStream.moved) + w.lost)
      rw [h.live, ← add_assoc, heldBy_move hat (by rw [moved_held, add_zero])]
  | move c j old new left hat hmove =>
      refine ⟨?_, h.nodup, h.given, h.once⟩
      show w.live = heldBy (new :: w.objs.set j left) + w.lost
      rw [heldBy_cons, heldBy_move hat (move_held hmove)]
      exact h.live
  | assign i j this old new left hi hj hmove =>
      refine ⟨?_, h.nodup, h.given, h.once⟩
      show w.live = heldBy ((w.objs.set i new).set j left) + (this.held + w.lost)
      rw [← add_assoc, add_comm _ this.held, heldBy_assign hi hj (by rw [move_held hmove])]
      · exact h.live
      · rintro rfl
        obtain rfl : this = old := Option.some.inj (hi.symm.trans hj)
        rw [move_self_held hmove, add_zero]
  | assignBase i j this old hi hj =>
      refine ⟨?_, h.nodup, h.given, h.once⟩
      show w.live = heldBy ((w.objs.set i (this.withSelf old.self)).set j old.sliced)
        + (Option.elim this.self 0 ({·}) + w.lost)
      rw [← add_assoc, add_comm (heldBy _), heldBy_assign hi hj]
      · exact h.live
      · rw [withSelf_held, ← self_held this, ← self_held old]
        abel
      · rintro rfl
        obtain rfl : this = old := Option.some.inj (hi.symm.trans hj)
        exact self_held this
  | destroy i this hi =>
      have hlive := h.destroyed hi
      obtain ⟨hrest, htwice⟩ := destruct_live hlive
      have hle : (w.destruct this).live ≤ w.live := by
        rw [hrest, hlive]
        exact Multiset.add_le_add_right (abandoned_le this)
      refine ⟨?_, Multiset.nodup_of_le hle h.nodup, fun s hs => ?_, htwice.trans h.once⟩
      · exact hrest.trans (add_left_comm _ _ _)
      · exact (h.given s (Multiset.mem_of_le hle hs)).trans_eq (destruct_count this w).1.symm

theorem accounted_of_reach (h : objects.Reach Lts.Any w) : Accounted w := by
  refine h.invariant (I := Accounted) ?_ ?_
  · rintro _ rfl
    exact .init
  · intro w a w' _ hw _ hs
    exact hw.step (objectsStep_cases hs)

end Steps

/-! ## Streams of the right kind -/

/-- The pointer of each class is to a stream of its kind. -/
def Obj.Fits : Obj → Prop
  | .base _ => True
  | .file self => ∀ s, self = some s → s.1 = .file
  | .http self => ∀ s, self = some s → s.1 = .http
  | .bufferRef self => ∀ s, self = some s → s.1 = .buffer
  | .buffer self mInnerStream => (∀ s, self = some s → s.1 = .buffer) ∧ mInnerStream.Fits

/-- The object that is destroyed has streams of its kinds. -/
def DestroysFitting (w : World) : Act → Prop
  | .destroy i => ∀ this, w.objs[i]? = some this → this.Fits
  | _ => True

/-- The base class assigns to an object only a stream of its kind. -/
def KeepsKinds (w : World) : Act → Prop
  | .assignBase i j => ∀ this old, w.objs[i]? = some this → w.objs[j]? = some old →
      (this.withSelf old.self).Fits
  | _ => True

section Kinds

variable {w w' : World} {a : Act} {o old new left : Obj} {c : Cls}

theorem destruct_mismatched : ∀ (o : Obj) (w : World),
    (w.destruct o).mismatched = false ↔ w.mismatched = false ∧ o.Fits
  | .base _, _ => (and_iff_left trivial).symm
  | .file self, w => close_mismatched .file self w
  | .http self, w => close_mismatched .http self w
  | .bufferRef self, w => close_mismatched .buffer self w
  | .buffer self mInnerStream, w => by
      refine (destruct_mismatched mInnerStream (w.close .buffer self)).trans ?_
      rw [close_mismatched, and_assoc]
      rfl

/-- Only a destructor destroys. -/
theorem Stepped.mismatched (hs : Stepped w a w') :
    w'.mismatched = false ↔ w.mismatched = false ∧ DestroysFitting w a := by
  cases hs with
  | destroy i this hi =>
      refine (destruct_mismatched this w).trans (and_congr_right' ?_)
      exact ⟨fun h _ heq => Option.some.inj (hi.symm.trans heq) ▸ h, fun h => h this hi⟩
  | thrown _ hcreates =>
      refine (and_iff_left ?_).symm
      cases a with
      | destroy => cases hcreates
      | _ => trivial
  | _ => exact (and_iff_left trivial).symm

/-- A stream is destroyed by the function of another kind just where an object
is destroyed that has got it. -/
theorem mismatched_iff (h : objects.Reach Lts.Any w) :
    w.mismatched = false ↔ objects.Reach DestroysFitting w := by
  constructor
  · induction h with
    | init hinit => exact fun _ => .init hinit
    | step _ _ hs ih =>
        intro hnone
        obtain ⟨hbefore, hfits⟩ := (objectsStep_cases hs).mismatched.mp hnone
        exact .step (ih hbefore) hfits hs
  · intro hfits
    refine hfits.invariant (I := fun w => w.mismatched = false) ?_ ?_
    · rintro _ rfl
      rfl
    · intro w a w' _ hbefore hok hs
      exact (objectsStep_cases hs).mismatched.mpr ⟨hbefore, hok⟩

theorem sliced_fits (h : o.Fits) : o.sliced.Fits := by
  cases o with
  | base => trivial
  | file | http | bufferRef => exact fun _ hs => by cases hs
  | buffer self mInnerStream => exact ⟨(fun _ hs => by cases hs), h.2⟩

theorem moved_fits : ∀ o : Obj, o.moved.Fits
  | .base _ => trivial
  | .file _ | .http _ | .bufferRef _ => fun _ h => by cases h
  | .buffer _ mInnerStream => ⟨(fun _ h => by cases h), moved_fits mInnerStream⟩

theorem move_fits (h : old.move c = some (new, left)) (hfits : old.Fits) :
    new.Fits ∧ left.Fits := by
  rcases move_cases h with ⟨-, rfl, rfl⟩ | ⟨-, rfl, rfl⟩
  · exact ⟨trivial, sliced_fits hfits⟩
  · exact ⟨hfits, moved_fits _⟩

theorem fits_step (h : ∀ o ∈ w.objs, o.Fits) (hkeeps : KeepsKinds w a) (hs : Stepped w a w') :
    ∀ o ∈ w'.objs, o.Fits := by
  cases hs with
  | thrown => exact h
  | file | http | bufferRef =>
      exact List.forall_mem_cons.mpr ⟨(fun _ hs => by cases hs; rfl), h⟩
  | buffer i innerStream t hat hself =>
      exact List.forall_mem_cons.mpr ⟨⟨(fun _ hs => by cases hs; rfl),
        h _ (List.mem_of_getElem? hat)⟩, forall_set h (moved_fits _)⟩
  | move c j old new left hat hmove =>
      obtain ⟨hnew, hleft⟩ := move_fits hmove (h _ (List.mem_of_getElem? hat))
      exact List.forall_mem_cons.mpr ⟨hnew, forall_set h hleft⟩
  | assign i j this old new left hi hj hmove =>
      obtain ⟨hnew, hleft⟩ := move_fits hmove (h _ (List.mem_of_getElem? hj))
      exact forall_set (forall_set h hnew) hleft
  | assignBase i j this old hi hj =>
      exact forall_set (forall_set h (hkeeps this old hi hj))
        (sliced_fits (h _ (List.mem_of_getElem? hj)))
  | destroy i this hi => exact fun o ho => h o (List.mem_of_mem_eraseIdx ho)

/-- Where the base class assigns no stream of another kind, none is destroyed
as one. -/
theorem destroysFitting_of_keepsKinds (h : objects.Reach KeepsKinds w) :
    objects.Reach DestroysFitting w ∧ ∀ o ∈ w.objs, o.Fits := by
  refine h.invariant
    (I := fun w => objects.Reach DestroysFitting w ∧ ∀ o ∈ w.objs, o.Fits) ?_ ?_
  · rintro _ rfl
    exact ⟨.init rfl, fun _ ho => by cases ho⟩
  · rintro w a w' - ⟨hr, hfits⟩ hkeeps hs
    refine ⟨.step hr ?_ hs, fits_step hfits hkeeps (objectsStep_cases hs)⟩
    cases a with
    | destroy i => exact fun this hi => hfits this (List.mem_of_getElem? hi)
    | _ => trivial

end Kinds

end Cxx

end Streamlike
