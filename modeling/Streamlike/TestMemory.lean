import Mathlib.Tactic.Abel
import Streamlike.Owned
import Streamlike.TestExact

/-!
# The memory of the checks

The blocks of `test.h`: that of a result and that of its message, the string
of `sl_test_failure_str` and the buffers of the two checks. The functions
are those of `TestResult`, `TestRead` and `TestExact` with what they request
and free, and where they follow a null pointer; what they read and write
inside a block is not part of it, and for `sl_test_failure_str` in
`TestFailure`. `sl_test_destroy` frees the messages of a chain and none of
its results (`slTestDestroy_spec`), and no path of a check frees its buffer
(`checked_spec`).
-/

namespace Streamlike

namespace Checks

open CFormat

/-- What a block of memory is for. -/
inductive Block where
  | result
  | msg
  | buffer
  | str
deriving DecidableEq

/-- A result, the address of its block and that of its message. -/
structure Node where
  result : Nat
  msg : Nat
  value : SlTestResult

/-- A pointer to a result, with the blocks along `inner`. -/
abbrev Chain := List Node

def Chain.value (chain : Chain) : SlTestPtr := chain.map Node.value

def Node.held (r : Node) : Multiset (Thing Block) := {(.result, r.result)} + {(.msg, r.msg)}

def Chain.held (chain : Chain) : Multiset (Thing Block) := (chain.map Node.held).sum

/-- The results without their messages. -/
def Chain.records (chain : Chain) : Multiset (Thing Block) :=
  (chain.map fun r => {(Block.result, r.result)}).sum

/-! ## The functions -/

section Functions

variable (grants : Grants Block) (contents : Nat → ByteMem UInt8) {σ : Type}

/-- `cleanup_error`. -/
def createFail (result msg : Option Nat) : Own Block Chain := do
  releaseSome .result result
  releaseSome .msg msg
  return []

/-- `sl_test_create`. `make` is the result as it is formatted into what
`malloc` gives, `NULL` when that fails; `contents` is what is in a block at
first. -/
def create (make : Option (ByteMem UInt8) → SlTestPtr) (inner : Chain) : Own Block Chain := do
  let some result ← acquire grants .result | createFail none none
  let some msg ← acquire grants .msg | createFail (some result) none
  match make (some (contents msg)) with
  | [] => createFail (some result) (some msg)
  | value :: _ => return ⟨result, msg, value⟩ :: inner

def slTestCreate (c : TestCall) (inner : Chain) : Own Block Chain :=
  create grants contents (fun block => { c with block }.create inner.value) inner

/-- `sl_test_destroy`. -/
def slTestDestroy : Chain → Own Block Unit
  | [] => pure ()
  | r :: inner => do
      release (.msg, r.msg)
      slTestDestroy inner

/-- `sl_test_failure_str`, as far as it requests its string. What it copies
there is in `Streamlike.slTestFailureStr`. -/
def slTestFailureStr (result : Chain) : Own Block (Option Nat) :=
  match result with
  | [] => pure none
  | r :: _ => if r.value.status = statusOk then pure none else acquire grants .str

/-- `return_if_not_ok`: what it returns with, if it does. It reads the status
of the result without a check for `NULL`. -/
def returnIfNotOk (c : TestCall) (result : Chain) : Own Block (Option Chain) :=
  match result with
  | [] => do
      misuse
      return none
  | r :: _ => do
      if r.value.status ≠ statusOk then
        return some (← slTestCreate grants contents { c with status := r.value.status } result)
      slTestDestroy result
      return none

/-- A check with its buffer. Its loop has no allocation, and each of its paths
ends with one `sl_test_create` (`Reports`). It may run on (`none`). -/
def checkWith (file : Bytes) (check : TestEnv → Option (SlTestPtr × StreamlikeT σ))
    (buffer : Option Nat) : Own Block (Option (Chain × StreamlikeT σ)) := do
  let result := fun block => check ⟨file, buffer.map contents, block⟩
  let some (_, stream) := result none | return none
  let chain ← create grants contents (fun block => ((result block).map Prod.fst).getD []) []
  return some (chain, stream)

/-- No path of a check frees the buffer. -/
def checked (file : Bytes) (check : TestEnv → Option (SlTestPtr × StreamlikeT σ)) :
    Own Block (Option (Chain × StreamlikeT σ)) := do
  let buffer ← acquire grants .buffer
  checkWith grants contents file check buffer

def slTestReadExact (file : Bytes) (fuel : Nat) (stream : StreamlikeT σ)
    (expected_data : ByteMem UInt8) (data_len buf_len : Nat) :
    Own Block (Option (Chain × StreamlikeT σ)) :=
  checked grants contents file fun env =>
    Streamlike.slTestReadExact fuel env stream expected_data data_len buf_len

def slTestReadUntilEof (file : Bytes) (fuel : Nat) (stream : StreamlikeT σ)
    (expected_data : ByteMem UInt8) (data_len buf_len : Nat) :
    Own Block (Option (Chain × StreamlikeT σ)) :=
  checked grants contents file fun env =>
    Streamlike.slTestReadUntilEof fuel env stream expected_data data_len buf_len

end Functions

/-! ## One result a check -/

section Reports

variable {σ : Type}

/-- Whatever the message gets, the check runs on, or it returns what one
`sl_test_create` returns. -/
def Reports (check : Option (ByteMem UInt8) → Option (SlTestPtr × StreamlikeT σ)) : Prop :=
  (∀ block, check block = none)
    ∨ ∃ (c : TestCall) (stream : StreamlikeT σ),
      ∀ block, check block = some ({ c with block }.create [], stream)

variable (file : Bytes) (buf : Option (ByteMem UInt8)) (expected_data : ByteMem UInt8)
variable (buf_len : Nat)

theorem reports_exact (line status : Int) (text : Bytes) (stream : StreamlikeT σ) :
    Reports fun block => some (exactResult ⟨file, buf, block⟩ line status text, stream) :=
  .inr ⟨⟨none, file, lit "sl_test_read_exact", line, status, ⟨text, false⟩⟩, stream, fun _ => rfl⟩

theorem reports_until_eof (line status : Int) (text : Bytes) (stream : StreamlikeT σ) :
    Reports fun block => some (testResult ⟨file, buf, block⟩ line status text, stream) :=
  .inr ⟨⟨none, file, lit "sl_test_read_until_eof", line, status, ⟨text, false⟩⟩, stream,
    fun _ => rfl⟩

theorem readExact_reports : ∀ fuel (stream : StreamlikeT σ) buffer off data_len,
    Reports fun block =>
      readExact ⟨file, buf, block⟩ expected_data buf_len fuel stream buffer off data_len := by
  intro fuel
  induction fuel with
  | zero => exact fun _ _ _ _ => .inl fun _ => rfl
  | succ fuel ih =>
      intro stream buffer off data_len
      simp only [readExact]
      split_ifs
      · exact reports_exact file buf 177 statusFail _ _
      · exact reports_exact file buf 181 statusFail _ _
      · exact ih _ _ _ _
      · exact reports_exact file buf 177 statusFail _ _
      · exact reports_exact file buf 181 statusFail _ _
      · exact ih _ _ _ _
      · exact reports_exact file buf 186 statusOk _ _

theorem slTestReadExact_reports (fuel : Nat) (stream : StreamlikeT σ) (data_len : Nat) :
    Reports fun block => Streamlike.slTestReadExact fuel ⟨file, buf, block⟩ stream
      expected_data data_len buf_len := by
  cases buf with
  | none => exact reports_exact file none 170 statusFail _ _
  | some buffer =>
      exact readExact_reports file _ expected_data buf_len fuel stream buffer 0 data_len

theorem readLast_reports (stream : StreamlikeT σ) (buffer : ByteMem UInt8) (off data_len : Nat) :
    Reports fun block =>
      some (readLast ⟨file, buf, block⟩ expected_data buf_len stream buffer off data_len) := by
  simp only [readLast]
  split_ifs
  · exact reports_until_eof file buf 228 statusFail _ _
  · exact reports_until_eof file buf 232 statusFail _ _
  · exact reports_until_eof file buf 238 statusFail _ _
  · exact reports_until_eof file buf 242 statusFail _ _
  · exact reports_until_eof file buf 244 statusOk _ _

theorem readBlocks_reports : ∀ fuel (stream : StreamlikeT σ) buffer off data_len,
    Reports fun block =>
      readBlocks ⟨file, buf, block⟩ expected_data buf_len fuel stream buffer off data_len := by
  intro fuel
  induction fuel with
  | zero => exact fun _ _ _ _ => .inl fun _ => rfl
  | succ fuel ih =>
      intro stream buffer off data_len
      simp only [readBlocks]
      split
      · simp only [readBlock]
        split_ifs
        · exact reports_until_eof file buf 206 statusFail _ _
        · exact reports_until_eof file buf 211 statusFail _ _
        · exact reports_until_eof file buf 215 statusFail _ _
        · exact reports_until_eof file buf 220 statusFail _ _
        · exact ih _ _ _ _
      · exact readLast_reports file buf expected_data buf_len stream buffer off data_len

theorem slTestReadUntilEof_reports (fuel : Nat) (stream : StreamlikeT σ) (data_len : Nat) :
    Reports fun block => Streamlike.slTestReadUntilEof fuel ⟨file, buf, block⟩ stream
      expected_data data_len buf_len := by
  cases buf with
  | none => exact reports_until_eof file none 200 statusFail _ _
  | some buffer =>
      exact readBlocks_reports file _ expected_data buf_len fuel stream buffer 0 data_len

end Reports

/-! ## What each function does -/

section Specs

variable {grants : Grants Block} {contents : Nat → ByteMem UInt8} {σ : Type}
variable {owned rest : Multiset (Thing Block)} {bad : Bool}

theorem held_cons (r : Node) (inner : Chain) :
    Chain.held (r :: inner) = r.held + inner.held := by
  rw [Chain.held, List.map_cons, List.sum_cons]
  rfl

theorem records_cons (r : Node) (inner : Chain) :
    Chain.records (r :: inner) = {(.result, r.result)} + inner.records := by
  rw [Chain.records, List.map_cons, List.sum_cons]
  rfl

/-- A result in front of `inner`, or `NULL` and nothing more than before. -/
def Created (make : Option (ByteMem UInt8) → SlTestPtr) (inner chain : Chain)
    (owned owned' : Multiset (Thing Block)) : Prop :=
  chain = [] ∧ owned' = owned
    ∨ ∃ r block rest, chain = r :: inner ∧ owned' = r.held + owned
      ∧ make (some block) = r.value :: rest

theorem create_spec (make : Option (ByteMem UInt8) → SlTestPtr) (inner : Chain) :
    Ensures (create grants contents make inner) owned bad fun chain owned' bad' =>
      bad' = bad ∧ Created make inner chain owned owned' := by
  have hnull : Ensures (Pure.pure ([] : Chain)) owned bad fun chain owned' bad' =>
      bad' = bad ∧ Created make inner chain owned owned' := .pure ⟨rfl, .inl ⟨rfl, rfl⟩⟩
  refine .bind (.acquire (fun _ _ => ?_) fun result _ => ?_)
  · exact .bind (.pure (.bind (.pure hnull)))
  refine .bind (.acquire (fun _ _ => ?_) fun msg _ => ?_)
  · exact .bind (.release rfl (.bind (.pure hnull)))
  dsimp only
  split
  · refine .of_eq ({(.result, result)} + ({(.msg, msg)} + owned)) (add_left_comm _ _ _) ?_
    exact .bind (.release rfl (.bind (.release rfl hnull)))
  · next value rest hmake =>
    refine .pure ⟨rfl, .inr ⟨_, _, _, rfl, ?_, hmake⟩⟩
    rw [Node.held, add_assoc, add_left_comm]

theorem slTestCreate_spec (c : TestCall) (inner : Chain) :
    Ensures (slTestCreate grants contents c inner) owned bad fun chain owned' bad' => bad' = bad
      ∧ Created (fun block => { c with block }.create inner.value) inner chain owned owned' :=
  create_spec _ inner

/-- The messages go, the results stay. -/
theorem slTestDestroy_spec : ∀ {chain : Chain} {owned rest : Multiset (Thing Block)},
    owned = chain.held + rest → Ensures (slTestDestroy chain) owned bad fun _ owned' bad' =>
      bad' = bad ∧ owned' = chain.records + rest
  | [], _, _, h => .pure ⟨rfl, h⟩
  | r :: inner, owned, rest, h => by
      refine .of_eq ({(.msg, r.msg)} + (Chain.held inner + ({(.result, r.result)} + rest))) ?_
        (.bind (.release rfl ?_))
      · rw [h, held_cons, Node.held]
        abel
      · refine (slTestDestroy_spec rfl).mono fun _ owned' bad' ⟨hbad, howned⟩ => ⟨hbad, ?_⟩
        rw [howned, records_cons]
        abel

theorem slTestFailureStr_spec (result : Chain) :
    Ensures (slTestFailureStr grants result) owned bad fun str owned' bad' =>
      bad' = bad ∧ owned' = thingOf .str str + owned := by
  have hnone : Ensures (Pure.pure (none : Option Nat)) owned bad fun str owned' bad' =>
      bad' = bad ∧ owned' = thingOf .str str + owned := .pure ⟨rfl, (zero_add _).symm⟩
  unfold slTestFailureStr
  split
  · exact hnone
  · split
    · exact hnone
    · exact .acquire (fun _ _ => ⟨rfl, (zero_add _).symm⟩) fun str _ => ⟨rfl, rfl⟩

/-- What `return_if_not_ok` leaves: the records of a chain that it destroys,
or the result that it returns with, or all of the chain when that fails. -/
theorem returnIfNotOk_spec (c : TestCall) {chain : Chain} (h : owned = chain.held + rest) :
    Ensures (returnIfNotOk grants contents c chain) owned bad fun ret owned' bad' =>
      match ret with
        | none => bad' = (bad || chain.isEmpty) ∧ owned' = chain.records + rest
        | some ret => bad' = bad ∧ ∃ status,
            Created (fun block => { c with block, status }.create chain.value) chain ret
              (chain.held + rest) owned' := by
  cases chain with
  | nil => exact .bind (.misuse (.pure ⟨(Bool.or_true _).symm, h⟩))
  | cons r inner =>
      unfold returnIfNotOk
      dsimp only
      split
      · exact .call (slTestCreate_spec _ _) fun chain owned' bad' ⟨hbad, hcreated⟩ =>
          .pure ⟨hbad, _, h ▸ hcreated⟩
      · refine .call (slTestDestroy_spec h) fun _ owned' bad' ⟨hbad, howned⟩ => .pure ⟨?_, howned⟩
        rw [hbad, List.isEmpty_cons, Bool.or_false]

theorem checkWith_spec (file : Bytes) (check : TestEnv → Option (SlTestPtr × StreamlikeT σ))
    (buffer : Option Nat) :
    Ensures (checkWith grants contents file check buffer) owned bad fun ret owned' bad' =>
      bad' = bad ∧ ∀ r, ret = some r → ∃ buf, Created
        (fun block => ((check ⟨file, buf, block⟩).map Prod.fst).getD []) [] r.1 owned owned' := by
  unfold checkWith
  dsimp only
  split
  · refine .call (create_spec _ _) fun chain owned' bad' ⟨hbad, hcreated⟩ => .pure ⟨hbad, ?_⟩
    intro r hr
    obtain rfl := Option.some.inj hr
    exact ⟨_, hcreated⟩
  · exact .pure ⟨rfl, fun _ h => by cases h⟩

/-- The buffer of a check stays live, whatever the check returns. -/
theorem checked_spec {heap : Heap Block} (hheap : heap.Holds owned bad) (file : Bytes)
    (check : TestEnv → Option (SlTestPtr × StreamlikeT σ)) :
    ∃ owned', (checked grants contents file check heap).2.Holds owned' bad
      ∧ ∀ ret, (checked grants contents file check heap).1 = some ret → ∃ buf, Created
          (fun block => ((check ⟨file, buf, block⟩).map Prod.fst).getD []) [] ret.1
          ((if grants .buffer heap.count then {(.buffer, heap.count)} else 0) + owned) owned' := by
  have hbuffer : Ensures (acquire grants Block.buffer) owned bad fun buffer owned' bad' =>
      bad' = bad ∧ owned' = thingOf .buffer buffer + owned :=
    .acquire (fun _ _ => ⟨rfl, (zero_add _).symm⟩) fun _ _ => ⟨rfl, rfl⟩
  obtain ⟨owned₁, bad₁, ⟨rfl, rfl⟩, hholds⟩ := hbuffer heap hheap
  obtain ⟨owned₂, bad₂, ⟨rfl, hcreated⟩, hholds₂⟩ :=
    @checkWith_spec grants contents _ _ _ file check (acquire grants Block.buffer heap).1 _ hholds
  refine ⟨owned₂, hholds₂, fun ret hret => ?_⟩
  obtain ⟨buf, hcreated⟩ := hcreated ret hret
  refine ⟨buf, ?_⟩
  have hthing : thingOf Block.buffer (acquire grants Block.buffer heap).1
      = if grants .buffer heap.count then {(.buffer, heap.count)} else 0 := by
    unfold acquire
    split <;> rfl
  exact hthing ▸ hcreated

end Specs

end Checks

end Streamlike
