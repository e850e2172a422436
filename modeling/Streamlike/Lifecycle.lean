import Mathlib.Tactic.Abel
import Streamlike.Owned

/-!
# What the streams hold

`circbuf_init`, `sl_buffer_create2`, `sl_http_create` and `sl_fopen` with
their counterparts, as far as they acquire and release. Memory, the
mutexes and conditions in it, threads, libcurl's handles and files are the
things; a request for any of them may be refused.
-/

namespace Streamlike

namespace Life

/-- The kinds: memory, and the memory of a thread identifier, which is asked
for without a check; the conditions and mutexes of a ring, at its address;
a mutex and a condition in memory of their own; a thread, at the address of
its identifier; the two handles of libcurl; a file. -/
inductive Kind where
  | memory
  | identifier
  | rcond
  | wcond
  | rlock
  | wlock
  | mutex
  | cond
  | thread
  | easy
  | multi
  | file
deriving Repr, DecidableEq

abbrev Call := Own Kind

variable (grants : Grants Kind)

/-! ## The ring -/

structure Circbuf where
  cbuf : Nat
  data : Nat
deriving Repr, DecidableEq

/-- The label `fail` of `circbuf_init`. -/
def circbufFail (cbuf data : Nat) : Call (Option Circbuf) := do
  release (.memory, data)
  release (.memory, cbuf)
  return none

def circbufInit (cbuf_size : Nat) : Call (Option Circbuf) := do
  if cbuf_size = 0 then return none
  let some cbuf ← acquire grants .memory | return none
  let some data ← acquire grants .memory
    | do
      release (.memory, cbuf)
      return none
  let ret ← setUp grants (.rcond, cbuf)
  if !ret then return ← circbufFail cbuf data
  let ret ← setUp grants (.wcond, cbuf)
  if !ret then
    release (.rcond, cbuf)
    return ← circbufFail cbuf data
  let ret ← setUp grants (.rlock, cbuf)
  if !ret then
    release (.rcond, cbuf)
    release (.wcond, cbuf)
    return ← circbufFail cbuf data
  let ret ← setUp grants (.wlock, cbuf)
  if !ret then
    release (.rcond, cbuf)
    release (.wcond, cbuf)
    release (.rlock, cbuf)
    return ← circbufFail cbuf data
  return some ⟨cbuf, data⟩

def circbufDestroy (cb : Circbuf) : Call Unit := do
  release (.rlock, cb.cbuf)
  release (.wlock, cb.cbuf)
  release (.rcond, cb.cbuf)
  release (.wcond, cb.cbuf)
  release (.memory, cb.data)
  release (.memory, cb.cbuf)

/-- What is inside a ring, besides its own memory. -/
def Circbuf.inside (cb : Circbuf) : Multiset (Thing Kind) :=
  {(.memory, cb.data)} + {(.rcond, cb.cbuf)} + {(.wcond, cb.cbuf)} + {(.rlock, cb.cbuf)}
    + {(.wlock, cb.cbuf)}

def Circbuf.held (cb : Circbuf) : Multiset (Thing Kind) := {(.memory, cb.cbuf)} + cb.inside

variable {grants} {owned : Multiset (Thing Kind)} {bad : Bool}

theorem circbufFail_spec {cbuf data : Nat} {rest : Multiset (Thing Kind)}
    (h : owned = {(.memory, data)} + ({(.memory, cbuf)} + rest)) :
    Ensures (circbufFail cbuf data) owned bad fun cb owned' bad' =>
      cb = none ∧ owned' = rest ∧ bad' = bad :=
  .bind (.release h (.bind (.release rfl (.pure ⟨rfl, rfl, rfl⟩))))

theorem circbufInit_spec (cbuf_size : Nat) :
    Ensures (circbufInit grants cbuf_size) owned bad fun cb owned' bad' =>
      bad' = bad ∧ match cb with
        | none => owned' = owned
        | some cb => owned' = cb.held + owned := by
  unfold circbufInit
  split
  · exact .pure ⟨rfl, rfl⟩
  refine .bind (.acquire (fun _ _ => .pure ⟨rfl, rfl⟩) fun cbuf _ => ?_)
  refine .bind (.acquire (fun _ _ => ?_) fun data _ => ?_)
  · exact .bind (.release rfl (.pure ⟨rfl, rfl⟩))
  have hfail : ∀ {owned'}, owned' = {(.memory, data)} + ({(.memory, cbuf)} + owned) →
      Ensures (circbufFail cbuf data >>= Pure.pure) owned' bad fun cb owned' bad' =>
        bad' = bad ∧ match cb with
          | none => owned' = owned
          | some cb => owned' = cb.held + owned := fun h =>
    .call (circbufFail_spec h) fun cb owned' bad' ⟨hnone, howned, hbad⟩ =>
      .pure ⟨hbad, by rw [hnone]; exact howned⟩
  refine .bind (.setUp (k := .memory) (by simp) (fun _ _ => hfail rfl) ?_)
  refine .bind (.setUp (k := .memory) (by simp) (fun _ _ => ?_) ?_)
  · exact .bind (.release rfl (hfail rfl))
  refine .bind (.setUp (k := .memory) (by simp) (fun _ _ => ?_) ?_)
  · refine .of_eq ({(.rcond, cbuf)} + ({(.wcond, cbuf)}
      + ({(.memory, data)} + ({(.memory, cbuf)} + owned)))) (by abel) ?_
    exact .bind (.release rfl (.bind (.release rfl (hfail rfl))))
  refine .bind (.setUp (k := .memory) (by simp) (fun _ _ => ?_) ?_)
  · refine .of_eq ({(.rcond, cbuf)} + ({(.wcond, cbuf)} + ({(.rlock, cbuf)}
      + ({(.memory, data)} + ({(.memory, cbuf)} + owned))))) (by abel) ?_
    exact .bind (.release rfl (.bind (.release rfl (.bind (.release rfl (hfail rfl))))))
  · refine .pure ⟨rfl, ?_⟩
    show _ = {(.memory, cbuf)} + ({(.memory, data)} + {(.rcond, cbuf)} + {(.wcond, cbuf)}
      + {(.rlock, cbuf)} + {(.wlock, cbuf)}) + owned
    abel

theorem circbufDestroy_spec {cb : Circbuf} {rest : Multiset (Thing Kind)}
    (h : owned = cb.held + rest) : Ensures (circbufDestroy cb) owned bad fun _ owned' bad' =>
      owned' = rest ∧ bad' = bad := by
  refine .bind (.release ?_ (.bind (.release rfl (.bind (.release rfl (.bind (.release rfl
    (.bind (.release rfl (.release rfl ⟨rfl, rfl⟩))))))))))
  rw [h]
  show {(.memory, cb.cbuf)} + ({(.memory, cb.data)} + {(.rcond, cb.cbuf)} + {(.wcond, cb.cbuf)}
    + {(.rlock, cb.cbuf)} + {(.wlock, cb.cbuf)}) + rest = _
  abel

/-! ## The buffered stream -/

/-- A stream of `buffer.c` with the fields of its context. -/
structure SlBuffer where
  stream : Nat
  context : Nat
  cbuf : Option Circbuf
  filler : Option Nat
  seekLock : Option Nat
  seekCond : Option Nat
deriving Repr, DecidableEq

/-- `malloc` and the initialisation of what it returns, and whether both
succeed. -/
def mallocInit (grants : Grants Kind) (k : Kind) : Call (Option Nat × Bool) := do
  let some lock ← acquire grants .memory | return (none, false)
  let ret ← setUp grants (k, lock)
  return (some lock, ret)

/-- The destruction of what `mallocInit` returns. -/
def destroyIf (k : Kind) : Option Nat → Call Unit
  | none => pure ()
  | some lock => do
      release (k, lock)
      release (.memory, lock)

/-- The label `fail` of `sl_buffer_create2`. -/
def createFail (stream context : Option Nat) (cbuf : Option Circbuf)
    (eof_lock eof_cond seek_lock seek_cond : Option Nat) : Call (Option SlBuffer) := do
  releaseSome .memory stream
  releaseSome .memory context
  releaseSome .memory (cbuf.map Circbuf.cbuf)
  destroyIf .mutex eof_lock
  destroyIf .cond eof_cond
  destroyIf .mutex seek_lock
  destroyIf .cond seek_cond
  return none

/-- `sl_buffer_create2`. `inner_stream` says whether there is one. -/
def slBufferCreate2 (grants : Grants Kind) (inner_stream : Bool) (buffer_size step_size : Nat) :
    Call (Option SlBuffer) := do
  if !inner_stream then return none
  if buffer_size = 0 then return none
  if step_size = 0 then return none
  let some context ← acquire grants .memory | createFail none none none none none none none
  let some cbuf ← circbufInit grants buffer_size
    | createFail none (some context) none none none none none
  let some stream ← acquire grants .memory
    | createFail none (some context) (some cbuf) none none none none
  let (eof_lock, ok) ← mallocInit grants .mutex
  if !ok then
    return ← createFail (some stream) (some context) (some cbuf) eof_lock none none none
  let (eof_cond, ok) ← mallocInit grants .cond
  if !ok then
    return ← createFail (some stream) (some context) (some cbuf) eof_lock eof_cond none none
  let (seek_lock, ok) ← mallocInit grants .mutex
  if !ok then
    return ← createFail (some stream) (some context) (some cbuf) eof_lock eof_cond seek_lock none
  let (seek_cond, ok) ← mallocInit grants .cond
  if !ok then
    return ← createFail (some stream) (some context) (some cbuf) eof_lock eof_cond seek_lock
      seek_cond
  return some ⟨stream, context, some cbuf, none, seek_lock, seek_cond⟩

/-- What there is of memory and what is initialised in it. -/
def pairOf (k : Kind) : Option Nat → Bool → Multiset (Thing Kind)
  | none, _ => 0
  | some i, true => {(k, i)} + {(.memory, i)}
  | some i, false => {(.memory, i)}

/-- What `mallocInit` returns: an initialisation has failed only in memory
in which nothing is initialised. -/
structure Pair (grants : Grants Kind) (k : Kind) (o : Option Nat) (ok : Bool)
    (owned : Multiset (Thing Kind)) : Prop where
  found : ok = true → ∃ i, o = some i
  idle : ok = false → ∀ i, o = some i → (k, i) ∉ owned
  refused : ok = false → ∀ i, o = some i → ∃ n, grants k n = false

theorem Pair.absent {k : Kind} : Pair grants k none false owned := ⟨nofun, nofun, nofun⟩

theorem Pair.whole {k : Kind} {i : Nat} : Pair grants k (some i) true owned :=
  ⟨fun _ => ⟨i, rfl⟩, nofun, nofun⟩

theorem Pair.tail {k : Kind} {o : Option Nat} {ok : Bool} {more : Multiset (Thing Kind)}
    (h : Pair grants k o ok (more + owned)) : Pair grants k o ok owned where
  found := h.found
  idle hok i hi hmem := h.idle hok i hi (Multiset.mem_add.mpr (.inr hmem))
  refused := h.refused

theorem mallocInit_spec {k : Kind} (hk : k ≠ .memory) :
    Ensures (mallocInit grants k) owned bad fun r owned' bad' =>
      bad' = bad ∧ owned' = pairOf k r.1 r.2 + owned ∧ Pair grants k r.1 r.2 owned' := by
  refine .bind (.acquire (fun _ _ => .pure ⟨rfl, (zero_add _).symm, nofun, nofun, nofun⟩)
    fun i hi => ?_)
  refine .bind (.setUp (k := .memory) (by simp) (fun n hn => .pure ⟨rfl, rfl, nofun, ?_, ?_⟩)
    (.pure ⟨rfl, (add_assoc _ _ _).symm, fun _ => ⟨i, rfl⟩, nofun, nofun⟩))
  · rintro - j hj hmem
    obtain rfl := Option.some.inj hj
    rcases Multiset.mem_add.mp hmem with hnew | hold
    · exact hk (Prod.mk.inj (Multiset.mem_singleton.mp hnew)).1
    · exact hi k hold
  · exact fun _ _ _ => ⟨n, hn⟩

theorem destroyIf_spec {k : Kind} {o : Option Nat} {ok : Bool} {rest : Multiset (Thing Kind)}
    (hp : Pair grants k o ok owned) (h : owned = pairOf k o ok + rest) :
    Ensures (destroyIf k o) owned bad fun _ owned' bad' =>
      owned' = rest ∧ ((∀ n, grants k n = true) → bad' = bad) := by
  cases o with
  | none => exact .pure ⟨h.trans (zero_add _), fun _ => rfl⟩
  | some i =>
      cases ok with
      | true =>
          exact .of_eq _ (h.trans (add_assoc _ _ _))
            (.bind (.release rfl (.release rfl ⟨rfl, fun _ => rfl⟩)))
      | false =>
          obtain ⟨n, hn⟩ := hp.refused rfl i rfl
          refine .bind (.release_idle (hp.idle rfl i rfl) (.release h ⟨rfl, fun hall => ?_⟩))
          rw [hall n] at hn
          cases hn

/-- No mutex, condition or thread identifier is ever refused. -/
structure Granted (grants : Grants Kind) : Prop where
  mutex : ∀ n, grants .mutex n = true
  cond : ∀ n, grants .cond n = true
  identifier : ∀ n, grants .identifier n = true

/-- What a buffered stream holds and can release. -/
def SlBuffer.held (b : SlBuffer) : Multiset (Thing Kind) :=
  {(.memory, b.stream)} + {(.memory, b.context)} + b.cbuf.elim 0 Circbuf.held
    + b.filler.elim 0 (fun i => {(.thread, i)} + {(.identifier, i)})
    + pairOf .mutex b.seekLock true + pairOf .cond b.seekCond true

/-- What is left of a creation. -/
def Created (owned : Multiset (Thing Kind)) (b : Option SlBuffer)
    (owned' : Multiset (Thing Kind)) : Prop :=
  match b with
  | some b => ∃ eof_lock eof_cond, owned' = b.held
      + (pairOf .mutex (some eof_lock) true + pairOf .cond (some eof_cond) true) + owned
  | none => owned' = owned ∨ ∃ cb : Circbuf, owned' = cb.inside + owned

/-- A failure releases all that there is but what is in `rest`. -/
theorem createFail_spec (grants : Grants Kind) (base rest : Multiset (Thing Kind))
    {stream context : Option Nat} {cbuf : Option Circbuf}
    {eof_lock eof_cond seek_lock seek_cond : Option Nat} {ok₁ ok₂ ok₃ ok₄ : Bool}
    (h₁ : Pair grants .mutex eof_lock ok₁ owned) (h₂ : Pair grants .cond eof_cond ok₂ owned)
    (h₃ : Pair grants .mutex seek_lock ok₃ owned) (h₄ : Pair grants .cond seek_cond ok₄ owned)
    (h : owned = thingOf .memory stream + (thingOf .memory context
      + (thingOf .memory (cbuf.map Circbuf.cbuf) + (pairOf .mutex eof_lock ok₁
        + (pairOf .cond eof_cond ok₂ + (pairOf .mutex seek_lock ok₃
          + (pairOf .cond seek_cond ok₄ + rest)))))))
    (hrest : Created base none rest) :
    Ensures (createFail stream context cbuf eof_lock eof_cond seek_lock seek_cond) owned bad
      fun b owned' bad' => (Granted grants → bad' = bad) ∧ Created base b owned' := by
  subst h
  refine .bind (.releaseSome rfl (.bind (.releaseSome rfl (.bind (.releaseSome rfl ?_)))))
  refine .call (destroyIf_spec h₁.tail.tail.tail rfl) fun _ owned bad₁ ⟨howned₁, hbad₁⟩ => ?_
  refine .call (destroyIf_spec (howned₁ ▸ h₂.tail.tail.tail.tail) howned₁)
    fun _ owned bad₂ ⟨howned₂, hbad₂⟩ => ?_
  refine .call (destroyIf_spec (howned₂ ▸ h₃.tail.tail.tail.tail.tail) howned₂)
    fun _ owned bad₃ ⟨howned₃, hbad₃⟩ => ?_
  refine .call (destroyIf_spec (howned₃ ▸ h₄.tail.tail.tail.tail.tail.tail) howned₃)
    fun _ owned bad₄ ⟨howned₄, hbad₄⟩ => .pure ⟨fun hgranted => ?_, howned₄ ▸ hrest⟩
  rw [hbad₄ hgranted.cond, hbad₃ hgranted.mutex, hbad₂ hgranted.cond, hbad₁ hgranted.mutex]

/-- The creation of a buffered stream. A stream comes with a lock and a
condition that nothing refers to any more. A failure keeps nothing, or what
is inside a ring of which the memory has been released. -/
theorem slBufferCreate2_spec (inner_stream : Bool) (buffer_size step_size : Nat) :
    Ensures (slBufferCreate2 grants inner_stream buffer_size step_size) owned bad
      fun b owned' bad' => (Granted grants → bad' = bad) ∧ Created owned b owned' := by
  unfold slBufferCreate2
  have hnull : Ensures (Pure.pure (none : Option SlBuffer)) owned bad
      fun b owned' bad' => (Granted grants → bad' = bad) ∧ Created owned b owned' :=
    .pure ⟨fun _ => rfl, .inl rfl⟩
  split
  · exact hnull
  split
  · exact hnull
  split
  · exact hnull
  refine .bind (.acquire (fun _ _ => ?_) fun context _ => ?_)
  · exact createFail_spec grants owned owned .absent .absent .absent .absent
      (by simp [thingOf, pairOf]) (.inl rfl)
  refine .call (circbufInit_spec buffer_size) fun cb owned₁ bad₁ ⟨hbad₁, hcb⟩ => ?_
  obtain rfl := hbad₁
  cases cb with
  | none =>
      subst hcb
      exact createFail_spec grants owned owned .absent .absent .absent .absent
        (by simp [thingOf, pairOf]) (.inl rfl)
  | some cb =>
  refine .bind (.acquire (fun _ _ => ?_) fun stream _ => ?_)
  · exact createFail_spec grants owned (cb.inside + owned) .absent .absent .absent .absent
      (by simp only [thingOf, pairOf, Option.map, hcb, Circbuf.held]; abel) (.inr ⟨cb, rfl⟩)
  -- from here on a failure leaves what is inside the ring
  refine .call (mallocInit_spec (by decide)) fun ⟨eof_lock, ok⟩ owned₂ bad₂ ⟨hbad₂, h₂, hp₂⟩ => ?_
  obtain rfl := hbad₂
  cases ok with
  | false =>
      refine createFail_spec grants owned (cb.inside + owned) hp₂ .absent .absent .absent ?_
        (.inr ⟨cb, rfl⟩)
      simp only [thingOf, pairOf, Option.map, h₂, hcb, Circbuf.held]
      abel
  | true =>
  obtain ⟨eof_lock, rfl⟩ := hp₂.found rfl
  refine .call (mallocInit_spec (by decide)) fun ⟨eof_cond, ok⟩ owned₃ bad₃ ⟨hbad₃, h₃, hp₃⟩ => ?_
  obtain rfl := hbad₃
  cases ok with
  | false =>
      refine createFail_spec grants owned (cb.inside + owned) .whole hp₃ .absent .absent ?_
        (.inr ⟨cb, rfl⟩)
      simp only [thingOf, pairOf, Option.map, h₃, h₂, hcb, Circbuf.held]
      abel
  | true =>
  obtain ⟨eof_cond, rfl⟩ := hp₃.found rfl
  refine .call (mallocInit_spec (by decide)) fun ⟨seek_lock, ok⟩ owned₄ bad₄ ⟨hbad₄, h₄, hp₄⟩ => ?_
  obtain rfl := hbad₄
  cases ok with
  | false =>
      refine createFail_spec grants owned (cb.inside + owned) .whole .whole hp₄ .absent ?_
        (.inr ⟨cb, rfl⟩)
      simp only [thingOf, pairOf, Option.map, h₄, h₃, h₂, hcb, Circbuf.held]
      abel
  | true =>
  obtain ⟨seek_lock, rfl⟩ := hp₄.found rfl
  refine .call (mallocInit_spec (by decide)) fun ⟨seek_cond, ok⟩ owned₅ bad₅ ⟨hbad₅, h₅, hp₅⟩ => ?_
  obtain rfl := hbad₅
  cases ok with
  | false =>
      refine createFail_spec grants owned (cb.inside + owned) .whole .whole .whole hp₅ ?_
        (.inr ⟨cb, rfl⟩)
      simp only [thingOf, pairOf, Option.map, h₅, h₄, h₃, h₂, hcb, Circbuf.held]
      abel
  | true =>
  obtain ⟨seek_cond, rfl⟩ := hp₅.found rfl
  refine .pure ⟨fun _ => rfl, eof_lock, eof_cond, ?_⟩
  simp only [SlBuffer.held, pairOf, Option.elim, h₅, h₄, h₃, h₂, hcb]
  abel

/-- `sl_buffer_threaded_fill_buffer`, with the stream that it leaves. -/
def slBufferThreadedFillBuffer (grants : Grants Kind) (b : SlBuffer) : Call (Int × SlBuffer) := do
  if b.cbuf.isNone then return (-3, b)
  if b.filler.isSome then return (-4, b)
  let some filler ← acquire grants .identifier
    | do
      -- `pthread_create` with a null pointer
      misuse
      return (0, b)
  let ret ← setUp grants (.thread, filler)
  if !ret then
    release (.identifier, filler)
    return (-5, b)
  return (0, { b with filler := some filler })

/-- The filler thread is joined, if `join`. -/
def joinFiller (join : Bool) (b : SlBuffer) : Call (Bool × SlBuffer) :=
  match b.filler with
  | none => return (true, b)
  | some filler => do
      if !join then return (false, b)
      release (.thread, filler)
      release (.identifier, filler)
      return (true, { b with filler := none })

def destroyRing (b : SlBuffer) : Call SlBuffer :=
  match b.cbuf with
  | none => return b
  | some cb => do
      circbufDestroy cb
      return { b with cbuf := none }

/-- A lock or condition is destroyed, if `ret` is 0. -/
def destroySeek (k : Kind) (ret : Int) : Option Nat → Call (Bool × Option Nat)
  | none => return (true, none)
  | some i => do
      if ret ≠ 0 then return (false, some i)
      release (k, i)
      release (.memory, i)
      return (true, none)

/-- `sl_buffer_destroy`, with the stream that it leaves. `join` says whether
the thread is joined, and `lock` and `cond` are what the two destructions
return. -/
def slBufferDestroy (join : Bool) (lock cond : Int) (b : SlBuffer) :
    Call (Int × Option SlBuffer) := do
  let (joined, b) ← joinFiller join b
  if !joined then return (-1, some b)
  let b ← destroyRing b
  let (done, seek_lock) ← destroySeek .mutex lock b.seekLock
  let b := { b with seekLock := seek_lock }
  if !done then return (-1, some b)
  let (done, seek_cond) ← destroySeek .cond cond b.seekCond
  let b := { b with seekCond := seek_cond }
  if !done then return (-1, some b)
  release (.memory, b.context)
  release (.memory, b.stream)
  return (0, none)

theorem slBufferThreadedFillBuffer_spec {b : SlBuffer} {rest : Multiset (Thing Kind)}
    (h : owned = b.held + rest) :
    Ensures (slBufferThreadedFillBuffer grants b) owned bad fun r owned' bad' =>
      (Granted grants → bad' = bad) ∧ owned' = r.2.held + rest := by
  unfold slBufferThreadedFillBuffer
  split
  · exact .pure ⟨fun _ => rfl, h⟩
  split
  · exact .pure ⟨fun _ => rfl, h⟩
  next hfiller =>
  have hnone : b.filler = none := by simpa using hfiller
  refine .bind (.acquire (fun n hn => ?_) fun filler _ => ?_)
  · refine .bind (.misuse (.pure ⟨fun hgranted => ?_, h⟩))
    rw [hgranted.identifier n] at hn
    cases hn
  refine .bind (.setUp (k := .identifier) (by simp) (fun _ _ => ?_) ?_)
  · exact .bind (.release rfl (.pure ⟨fun _ => rfl, h⟩))
  · refine .pure ⟨fun _ => rfl, ?_⟩
    simp only [SlBuffer.held, hnone, h, Option.elim]
    abel

theorem joinFiller_spec {join : Bool} {b : SlBuffer} {rest : Multiset (Thing Kind)}
    (h : owned = b.held + rest) :
    Ensures (joinFiller join b) owned bad fun r owned' bad' =>
      bad' = bad ∧ owned' = r.2.held + rest ∧ (r.1 = true → r.2.filler = none) := by
  unfold joinFiller
  split
  · next hnone => exact .pure ⟨rfl, h, fun _ => hnone⟩
  next filler hsome =>
  split
  · exact .pure ⟨rfl, h, nofun⟩
  refine .of_eq ({(.thread, filler)} + ({(.identifier, filler)}
    + ({ b with filler := none }.held + rest))) ?_
    (.bind (.release rfl (.bind (.release rfl (.pure ⟨rfl, rfl, fun _ => rfl⟩)))))
  simp only [h, SlBuffer.held, hsome, Option.elim]
  abel

theorem destroyRing_spec {b : SlBuffer} {rest : Multiset (Thing Kind)}
    (h : owned = b.held + rest) :
    Ensures (destroyRing b) owned bad fun b' owned' bad' =>
      bad' = bad ∧ owned' = b'.held + rest ∧ b' = { b with cbuf := none } := by
  unfold destroyRing
  split
  · next hnone => exact .pure ⟨rfl, h, by rw [← hnone]⟩
  next cb hsome =>
  have hring : owned = cb.held + ({ b with cbuf := none }.held + rest) := by
    simp only [h, SlBuffer.held, hsome, Option.elim]
    abel
  exact .call (circbufDestroy_spec hring) fun _ _ _ ⟨howned, hbad⟩ => .pure ⟨hbad, howned, rfl⟩

theorem destroySeek_spec {k : Kind} {ret : Int} {o : Option Nat} {rest : Multiset (Thing Kind)}
    (h : owned = pairOf k o true + rest) :
    Ensures (destroySeek k ret o) owned bad fun r owned' bad' =>
      bad' = bad ∧ owned' = pairOf k r.2 true + rest ∧ (r.1 = true → r.2 = none) := by
  cases o with
  | none => exact .pure ⟨rfl, h, fun _ => rfl⟩
  | some i =>
      unfold destroySeek
      dsimp only
      split
      · exact .pure ⟨rfl, h, nofun⟩
      · exact .of_eq _ (h.trans (add_assoc _ _ _)) (.bind (.release rfl
          (.bind (.release rfl (.pure ⟨rfl, (zero_add _).symm, fun _ => rfl⟩)))))

/-- A destruction returns 0 just when the stream is gone, and a stream that
is left can be destroyed again. -/
theorem slBufferDestroy_spec {join : Bool} {lock cond : Int} {b : SlBuffer}
    {rest : Multiset (Thing Kind)} (h : owned = b.held + rest) :
    Ensures (slBufferDestroy join lock cond b) owned bad fun r owned' bad' =>
      bad' = bad ∧ owned' = r.2.elim 0 SlBuffer.held + rest ∧ (r.1 = 0 ↔ r.2 = none) := by
  refine .call (joinFiller_spec h) fun ⟨joined, b₁⟩ owned₁ bad₁ ⟨hbad₁, h₁, hfiller⟩ => ?_
  obtain rfl := hbad₁
  cases joined with
  | false => exact .pure ⟨rfl, h₁, by simp⟩
  | true =>
  have hfiller : b₁.filler = none := hfiller rfl
  refine .call (destroyRing_spec h₁) fun b₂ owned₂ bad₂ ⟨hbad₂, h₂, hb₂⟩ => ?_
  obtain rfl := hbad₂
  subst hb₂
  have hlock : owned₂ = pairOf .mutex b₁.seekLock true
      + ({ b₁ with cbuf := none, seekLock := none }.held + rest) := by
    simp only [h₂, SlBuffer.held, pairOf]
    abel
  refine .call (destroySeek_spec hlock) fun ⟨done, seek_lock⟩ owned₃ bad₃ ⟨hbad₃, h₃, hnone₃⟩ => ?_
  obtain rfl := hbad₃
  cases done with
  | false =>
      refine .pure ⟨rfl, ?_, by simp⟩
      simp only [h₃, SlBuffer.held, pairOf, Option.elim]
      abel
  | true =>
  obtain rfl : seek_lock = none := hnone₃ rfl
  have hcond : owned₃ = pairOf .cond b₁.seekCond true
      + ({ b₁ with cbuf := none, seekLock := none, seekCond := none }.held + rest) := by
    simp only [h₃, SlBuffer.held, pairOf]
    abel
  refine .call (destroySeek_spec hcond) fun ⟨done, seek_cond⟩ owned₄ bad₄ ⟨hbad₄, h₄, hnone₄⟩ => ?_
  obtain rfl := hbad₄
  cases done with
  | false =>
      refine .pure ⟨rfl, ?_, by simp⟩
      simp only [h₄, SlBuffer.held, pairOf, Option.elim]
      abel
  | true =>
  obtain rfl : seek_cond = none := hnone₄ rfl
  refine .of_eq ({(.memory, b₁.context)} + ({(.memory, b₁.stream)} + rest)) ?_
    (.bind (.release rfl (.bind (.release rfl (.pure ⟨rfl, (zero_add _).symm, by simp⟩)))))
  simp only [h₄, SlBuffer.held, hfiller, pairOf, Option.elim]
  abel

/-! ## The other streams -/

/-- A stream of `http.c`: the memory of the stream and of its context, and
the two handles. -/
structure SlHttp where
  stream : Nat
  context : Nat
  curl : Nat
  curlm : Nat
deriving Repr, DecidableEq

/-- `sl_http_open`; `none` is its return value 2. -/
def slHttpOpen (grants : Grants Kind) (stream : Nat) : Call (Option SlHttp) := do
  let some http ← acquire grants .memory | return none
  let some curl ← acquire grants .easy
    | do
      release (.memory, http)
      return none
  let some curlm ← acquire grants .multi
    | do
      release (.easy, curl)
      release (.memory, http)
      return none
  return some ⟨stream, http, curl, curlm⟩

def slHttpCreate (grants : Grants Kind) : Call (Option SlHttp) := do
  let some stream ← acquire grants .memory | return none
  let some http ← slHttpOpen grants stream
    | do
      release (.memory, stream)
      return none
  return some http

def slHttpClose (http : SlHttp) : Call Unit := do
  release (.easy, http.curl)
  release (.multi, http.curlm)
  release (.memory, http.context)

def slHttpDestroy (http : SlHttp) : Call Unit := do
  slHttpClose http
  release (.memory, http.stream)

def SlHttp.held (http : SlHttp) : Multiset (Thing Kind) :=
  {(.memory, http.stream)} + {(.memory, http.context)} + {(.easy, http.curl)}
    + {(.multi, http.curlm)}

/-- A stream of `file.c`. -/
structure SlFile where
  stream : Nat
  file : Nat
deriving Repr, DecidableEq

def slFopen2 (grants : Grants Kind) (file : Nat) : Call (Option SlFile) := do
  let some stream ← acquire grants .memory | return none
  return some ⟨stream, file⟩

def slFopen (grants : Grants Kind) : Call (Option SlFile) := do
  let some file ← acquire grants .file | return none
  slFopen2 grants file

/-- `sl_fclose`. Whatever `fclose` returns, the file is closed. -/
def slFclose (ret : Int) (f : SlFile) : Call Int := do
  release (.file, f.file)
  if ret < 0 then return -1
  release (.memory, f.stream)
  return 0

def SlFile.held (f : SlFile) : Multiset (Thing Kind) := {(.memory, f.stream)} + {(.file, f.file)}

theorem slHttpCreate_spec :
    Ensures (slHttpCreate grants) owned bad fun r owned' bad' =>
      bad' = bad ∧ owned' = r.elim 0 SlHttp.held + owned := by
  have hnone : ∀ {owned' : Multiset (Thing Kind)}, owned' = owned →
      Ensures (Pure.pure (none : Option SlHttp)) owned' bad fun r owned' bad' =>
        bad' = bad ∧ owned' = r.elim 0 SlHttp.held + owned := fun h =>
    .pure ⟨rfl, h.trans (zero_add _).symm⟩
  refine .bind (.acquire (fun _ _ => hnone rfl) fun stream _ => ?_)
  refine .bind (.bind (.acquire (fun _ _ => ?_) fun http _ => ?_))
  · exact .pure (.bind (.release rfl (hnone rfl)))
  refine .bind (.acquire (fun _ _ => ?_) fun curl _ => ?_)
  · exact .bind (.release rfl (.pure (.bind (.release rfl (hnone rfl)))))
  refine .bind (.acquire (fun _ _ => ?_) fun curlm _ => ?_)
  · exact .bind (.release rfl (.bind (.release rfl (.pure (.bind (.release rfl (hnone rfl)))))))
  · refine .pure (.pure ⟨rfl, ?_⟩)
    simp only [Option.elim, SlHttp.held]
    abel

theorem slHttpDestroy_spec {http : SlHttp} {rest : Multiset (Thing Kind)}
    (h : owned = http.held + rest) :
    Ensures (slHttpDestroy http) owned bad fun _ owned' bad' => bad' = bad ∧ owned' = rest := by
  refine .of_eq ({(.easy, http.curl)} + ({(.multi, http.curlm)} + ({(.memory, http.context)}
    + ({(.memory, http.stream)} + rest)))) ?_ ?_
  · rw [h, SlHttp.held]
    abel
  · exact .bind (.bind (.release rfl (.bind (.release rfl (.release rfl
      (.release rfl ⟨rfl, rfl⟩))))))

theorem slFopen_spec :
    Ensures (slFopen grants) owned bad fun r owned' bad' => bad' = bad ∧ match r with
      | some f => owned' = f.held + owned
      | none => owned' = owned ∨ ∃ file, owned' = {(.file, file)} + owned := by
  refine .bind (.acquire (fun _ _ => .pure ⟨rfl, .inl rfl⟩) fun file _ => ?_)
  refine .bind (.acquire (fun _ _ => .pure ⟨rfl, .inr ⟨file, rfl⟩⟩) fun stream _ => ?_)
  refine .pure ⟨rfl, ?_⟩
  simp only [SlFile.held]
  abel

theorem slFclose_spec {ret : Int} {f : SlFile} {rest : Multiset (Thing Kind)}
    (h : owned = f.held + rest) :
    Ensures (slFclose ret f) owned bad fun r owned' bad' =>
      bad' = bad ∧ owned' = (if r = 0 then 0 else {(.memory, f.stream)}) + rest := by
  refine .of_eq ({(.file, f.file)} + ({(.memory, f.stream)} + rest)) ?_ (.bind (.release rfl ?_))
  · rw [h, SlFile.held]
    abel
  split
  · exact .pure ⟨rfl, rfl⟩
  · exact .bind (.release rfl (.pure ⟨rfl, (zero_add _).symm⟩))

end Life

end Streamlike
