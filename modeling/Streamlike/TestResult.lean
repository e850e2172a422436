import Streamlike.CFormat
import Streamlike.SizeT

/-!
# Test results

`sl_test_result_t` of `test.h` with `sl_test_create`, which formats the
message of a result into a block of fixed size and keeps its length, and
`sl_test_failure_str`, which trusts the lengths to join the messages of a
chain of nested results into one allocated string.

A pointer to a result is the list of the results from there along `inner`;
`NULL` is the empty list.
-/

namespace Streamlike

open CString CFormat SizeT

/-! ## The functions -/

/-- `SL_TEST_MSG_MAX_SIZE`. -/
def slTestMsgMaxSize : Nat := 1024

/-- `SL_TEST_FAIL`. -/
def statusFail : Int := 70

/-- `SL_TEST_OK`. -/
def statusOk : Int := 83

/-- `struct sl_test_result_s`, without `inner`. -/
structure SlTestResult where
  file : Bytes
  func : Bytes
  line : Int
  status : Int
  msg : ByteMem UInt8
  msgLen : Nat

/-- `sl_test_result_t *`. -/
abbrev SlTestPtr := List SlTestResult

/-- `"%c:%s:%d: ", (char)status, func, line`. -/
def testHeader (status : Int) (func : Bytes) (line : Int) : Formatted :=
  ⟨formatChar status ++ lit ":" ++ cstr func ++ lit ":" ++ formatInt line ++ lit ": ", false⟩

/-- `sl_test_create`. `block` is what `malloc` gives for the message, `none`
when it or the allocation of the result fails; `text` is what `fmt` and its
arguments are to produce. -/
def slTestCreate (block : Option (ByteMem UInt8)) (file func : Bytes) (line status : Int)
    (inner : SlTestPtr) (text : Formatted) : SlTestPtr :=
  match block with
  | none => []
  | some msg =>
      let (msg, ret) := snprintf msg 0 slTestMsgMaxSize (testHeader status func line)
      if ret < 0 then []
      else
        let msg_len := ret
        if toInt (msg_len + 1) < slTestMsgMaxSize then
          let (msg, ret) :=
            snprintf msg msg_len.toNat (toSizeT (slTestMsgMaxSize - msg_len)) text
          if ret < 0 then
            ⟨file, func, line, status, msg.set msg_len.toNat 0, toSizeT msg_len⟩ :: inner
          else ⟨file, func, line, status, msg, toSizeT (toInt (msg_len + ret))⟩ :: inner
        else ⟨file, func, line, status, msg, toSizeT msg_len⟩ :: inner

/-- What `sl_test_failure_str` touches: the first bytes of the message of a
result, and a region of the string that it allocated with `size` bytes. -/
inductive Touch where
  | read (r : SlTestResult) (len : Nat)
  | write (size : Nat) (off : Int) (len : Nat)

/-- The first loop: the sum of the lengths, in an `int`. -/
def failureLen (n : Int) : SlTestPtr → Int
  | [] => n
  | r :: inner => failureLen (toInt (n + r.msgLen + 2)) inner

/-- Bytes stored from `result_str + off` on. What is stored outside the
string is of no account here. -/
def storeStr (size : Nat) (result_str : ByteMem UInt8) (off : Int) (l : Bytes) :
    Traced Touch (ByteMem UInt8) := do
  access (.write size off l.length)
  pure (result_str.write off.toNat l)

/-- The second loop. -/
def failureCopy (size : Nat) (result_str : ByteMem UInt8) (n : Int) :
    SlTestPtr → Traced Touch (ByteMem UInt8 × Int)
  | [] => pure (result_str, n)
  | r :: inner => do
      access (.read r r.msgLen)
      let result_str ← storeStr size result_str n (r.msg.read 0 r.msgLen)
      let n := toInt (n + r.msgLen)
      let result_str ← storeStr size result_str n (lit "\n")
      let n := toInt (n + 1)
      let result_str ← storeStr size result_str n (lit "\t")
      let n := toInt (n + 1)
      failureCopy size result_str n inner

/-- `malloc`: a block of the size asked for, or `NULL`, as it is for more
than `PTRDIFF_MAX`. -/
structure Malloc where
  block : Nat → Option (ByteMem UInt8)
  limit : ∀ n, 2 ^ 63 ≤ n → block n = none

/-- `sl_test_failure_str`. -/
def slTestFailureStr (malloc : Malloc) (result : SlTestPtr) :
    Traced Touch (Option (ByteMem UInt8)) :=
  match result with
  | [] => pure none
  | r :: _ =>
      if r.status = statusOk then pure none
      else
        let size := toSizeT (failureLen 0 result)
        match malloc.block size with
        | none => pure none
        | some result_str => do
            let (result_str, n) ← failureCopy size result_str 0 result
            let result_str ← storeStr size result_str (toInt (n - 2)) [0]
            pure (some result_str)

/-! ## What the messages are -/

/-- The string stored in `msg`. -/
def SlTestResult.stored (r : SlTestResult) : Bytes := cstr (r.msg.read 0 slTestMsgMaxSize)

/-- `msg_len` is the length of the stored string. -/
structure SlTestResult.TrueLength (r : SlTestResult) : Prop where
  length : r.msgLen = r.stored.length
  lt_max : r.msgLen < slTestMsgMaxSize

/-- Then `msg_len` bytes of the message are the stored string. -/
theorem SlTestResult.TrueLength.read {r : SlTestResult} (h : r.TrueLength) :
    r.msg.read 0 r.msgLen = r.stored := by
  have hprefix : r.stored <+: r.msg.read 0 slTestMsgMaxSize := List.takeWhile_prefix _
  rw [List.prefix_iff_eq_take.mp hprefix, ← h.length, ByteMem.take_read _ _ h.lt_max.le]

/-- The arguments of an `sl_test_create`. -/
structure TestCall where
  block : Option (ByteMem UInt8)
  file : Bytes
  func : Bytes
  line : Int
  status : Int
  text : Formatted

def TestCall.create (c : TestCall) (inner : SlTestPtr) : SlTestPtr :=
  slTestCreate c.block c.file c.func c.line c.status inner c.text

/-- The header. -/
def TestCall.header (c : TestCall) : Bytes := (testHeader c.status c.func c.line).bytes

/-- The text as far as it is added: when the header leaves room for it, and
it can be formatted. -/
def TestCall.added (c : TestCall) : Bytes :=
  if toInt (c.header.length + 1) < slTestMsgMaxSize ∧ c.text.Counted then c.text.bytes else []

/-- The whole message. -/
def TestCall.message (c : TestCall) : Bytes := c.header ++ c.added

/-- A text that is not added is no part of it. -/
theorem TestCall.message_eq_header (c : TestCall)
    (h : ¬ (toInt (c.header.length + 1) < slTestMsgMaxSize ∧ c.text.Counted)) :
    c.message = c.header := by
  have hadded : c.added = [] := if_neg h
  rw [TestCall.message, hadded, List.append_nil]

/-- The message is shorter than the block for it, and has no NUL. -/
def TestCall.Fits (c : TestCall) : Prop :=
  c.message.length < slTestMsgMaxSize ∧ 0 ∉ c.message

instance (c : TestCall) : Decidable c.Fits := inferInstanceAs (Decidable (_ ∧ _))

/-! ## The message of a result -/

/-- Where the text is added there is room for a byte of it, or the header
is longer than the block: the sum in the comparison wraps for the longest
header that an `int` can count. -/
theorem room_cases {n : Nat} (hroom : toInt (n + 1) < slTestMsgMaxSize) :
    n + 1 < slTestMsgMaxSize ∨ slTestMsgMaxSize ≤ n := by
  by_contra hfull
  obtain rfl : n = 1023 := by unfold slTestMsgMaxSize at hfull; omega
  exact absurd hroom (by decide)

/-- A block with the header in it, as far as it is stored. -/
structure HoldsHeader (m : ByteMem UInt8) (h : Bytes) : Prop where
  stored : cstr (m.read 0 slTestMsgMaxSize) = cstr (h.take (slTestMsgMaxSize - 1))
  whole : h.length + 1 < slTestMsgMaxSize → m.read 0 h.length = h

theorem holdsHeader_snprintf (m : ByteMem UInt8) (f : Formatted) :
    HoldsHeader (snprintf m 0 slTestMsgMaxSize f).1 f.bytes := by
  refine ⟨cstr_read (snprintf_read m 0 (slTestMsgMaxSize - 1) f) ?_, fun hroom => ?_⟩
  · rw [List.length_take]
    exact lt_of_le_of_lt (Nat.min_le_left _ _) (by decide)
  · exact snprintf_read_all m 0 (slTestMsgMaxSize - 1) (by omega)

section Message

variable {m m' : ByteMem UInt8} {h : Bytes}

/-- What is stored behind a header that is longer than the block is not
part of the message. -/
theorem HoldsHeader.stored_far (hm : HoldsHeader m h) (hfar : slTestMsgMaxSize ≤ h.length)
    (hsame : ∀ k < h.length, m' k = m k) :
    cstr (m'.read 0 slTestMsgMaxSize) = cstr (h.take (slTestMsgMaxSize - 1)) := by
  rw [← hm.stored]
  exact congrArg cstr (ByteMem.read_congr fun j hj => hsame _ (by omega))

/-- The header with a NUL stored behind it. -/
theorem HoldsHeader.stored_cut (hm : HoldsHeader m h)
    (hroom : toInt (h.length + 1) < slTestMsgMaxSize) (hsame : ∀ k < h.length, m' k = m k) :
    cstr ((m'.set h.length 0).read 0 slTestMsgMaxSize)
      = cstr (h.take (slTestMsgMaxSize - 1)) := by
  have hbelow : ∀ k < h.length, (m'.set h.length 0) k = m k := fun k hk =>
    (ByteMem.set_of_ne m' 0 (Nat.ne_of_lt hk)).trans (hsame k hk)
  rcases room_cases hroom with hnear | hfar
  · rw [List.take_of_length_le (by omega)]
    refine cstr_read ?_ (by omega)
    have hread : (m'.set h.length 0).read 0 h.length = h :=
      (ByteMem.read_congr fun j hj => hbelow _ (by omega)).trans (hm.whole hnear)
    rw [ByteMem.read_add, hread]
    simp [ByteMem.read]
  · exact hm.stored_far hfar hbelow

/-- The header with a text stored behind it. -/
theorem HoldsHeader.stored_added (hm : HoldsHeader m h)
    (hroom : toInt (h.length + 1) < slTestMsgMaxSize) (text : Formatted) :
    cstr ((snprintf m h.length (toSizeT (slTestMsgMaxSize - h.length)) text).1.read 0
        slTestMsgMaxSize)
      = cstr ((h ++ text.bytes).take (slTestMsgMaxSize - 1)) := by
  have hbelow : ∀ k < h.length, (snprintf m h.length (toSizeT (slTestMsgMaxSize - h.length))
      text).1 k = m k := fun k hk => snprintf_of_lt m _ text hk
  rcases room_cases hroom with hnear | hfar
  · have hread := (ByteMem.read_congr fun j hj => hbelow (0 + j) (by omega)).trans (hm.whole hnear)
    have hsize : toSizeT (slTestMsgMaxSize - h.length) = slTestMsgMaxSize - 1 - h.length + 1 := by
      unfold toSizeT slTestMsgMaxSize at *
      omega
    rw [hsize] at hread ⊢
    rw [List.take_append, List.take_of_length_le (by omega)]
    refine cstr_read ?_ ?_
    · rw [List.length_append, Nat.add_assoc, ByteMem.read_add, hread, Nat.zero_add,
        snprintf_read, List.append_assoc]
    · rw [List.length_append, List.length_take]
      omega
  · rw [List.take_append_of_le_length (by omega)]
    exact hm.stored_far hfar hbelow

end Message

/-- What the call that created a result gave it. -/
structure SlTestResult.CreatedBy (r : SlTestResult) (c : TestCall) : Prop where
  status : r.status = c.status
  stored : r.stored = cstr (c.message.take (slTestMsgMaxSize - 1))
  msgLen : r.msgLen = toSizeT (toInt c.message.length)
  /-- The header and the text are each counted by an `int`. -/
  bounded : c.message.length ≤ intMax + intMax

theorem create_eq {c : TestCall} {inner rest : SlTestPtr} {r : SlTestResult}
    (hc : c.create inner = r :: rest) : rest = inner ∧ r.CreatedBy c := by
  unfold TestCall.create slTestCreate at hc
  cases hb : c.block with
  | none => rw [hb] at hc; cases hc
  | some block =>
      rw [hb] at hc
      have hheader : HoldsHeader _ c.header := holdsHeader_snprintf block _
      have hfails : (snprintf block 0 slTestMsgMaxSize (testHeader c.status c.func c.line)).2 < 0
          ↔ _ := snprintf_fails
      have hcounts := fun h => snprintf_counts block 0 slTestMsgMaxSize
        (f := testHeader c.status c.func c.line) h
      rcases hfirst : snprintf block 0 slTestMsgMaxSize (testHeader c.status c.func c.line)
        with ⟨msg, ret⟩
      simp only [hfirst] at hc hheader hfails hcounts
      split_ifs at hc with hneg hroom htext
      all_goals
        have hcounted := not_not.mp fun h => hneg (hfails.mpr h)
        obtain rfl : ret = c.header.length := hcounts hcounted
        have hlen : c.header.length ≤ intMax := hcounted.2
        obtain ⟨rfl, rfl⟩ := List.cons.inj hc
      · -- the text cannot be formatted
        have hmessage := c.message_eq_header fun h => snprintf_fails.mp htext h.2
        refine ⟨rfl, rfl, ?_, ?_, ?_⟩ <;> rw [hmessage]
        · exact hheader.stored_cut hroom fun k hk => snprintf_of_lt msg _ c.text hk
        · rw [toInt_of_le (Int.natCast_nonneg _) (Int.ofNat_le.mpr hlen)]
        · omega
      · have htext : c.text.Counted := not_not.mp fun h => htext (snprintf_fails.mpr h)
        have hmessage : c.message = c.header ++ c.text.bytes :=
          congrArg (c.header ++ ·) (if_pos ⟨hroom, htext⟩)
        refine ⟨rfl, rfl, ?_, ?_, ?_⟩ <;> rw [hmessage]
        · rw [← hheader.stored_added hroom c.text, SlTestResult.stored, Int.toNat_natCast]
        · rw [snprintf_counts _ _ _ htext, List.length_append, Int.natCast_add]
        · rw [List.length_append]
          exact Nat.add_le_add hlen htext.2
      · have hmessage := c.message_eq_header fun h => hroom h.1
        refine ⟨rfl, rfl, ?_, ?_, ?_⟩ <;> rw [hmessage]
        · exact hheader.stored
        · rw [toInt_of_le (Int.natCast_nonneg _) (Int.ofNat_le.mpr hlen)]
        · omega

/-- With a block, and a header that an `int` can count, there is a result. -/
theorem create_returns (c : TestCall) (inner : SlTestPtr) {block : ByteMem UInt8}
    (hb : c.block = some block) (hlen : c.header.length ≤ intMax) :
    ∃ r, c.create inner = r :: inner := by
  have hret := snprintf_counts block 0 slTestMsgMaxSize
    (f := testHeader c.status c.func c.line) ⟨rfl, hlen⟩
  unfold TestCall.create slTestCreate
  rw [hb]
  dsimp only
  rw [hret, if_neg (by omega)]
  split
  · split <;> exact ⟨_, rfl⟩
  · exact ⟨_, rfl⟩

section Created

variable {r : SlTestResult} {c : TestCall}

/-- The stored length is that of the message, unless the sum is no `int`. -/
theorem SlTestResult.CreatedBy.msgLen_cases (h : r.CreatedBy c) :
    (c.message.length ≤ intMax ∧ r.msgLen = c.message.length)
      ∨ intMax < c.message.length ∧ 2 ^ 63 ≤ r.msgLen := by
  have hbound := h.bounded
  rw [h.msgLen]
  unfold toSizeT toInt intMax at *
  rw [Int.bmod_def]
  omega

theorem SlTestResult.CreatedBy.length_stored (h : r.CreatedBy c) :
    r.stored.length ≤ c.message.length ∧ r.stored.length < slTestMsgMaxSize := by
  have hle := length_cstr_le (c.message.take (slTestMsgMaxSize - 1))
  rw [← h.stored, List.length_take] at hle
  have hpos : 0 < slTestMsgMaxSize := by decide
  omega

/-- The length is never too small. -/
theorem SlTestResult.CreatedBy.length_le (h : r.CreatedBy c) : r.stored.length ≤ r.msgLen := by
  obtain ⟨hle, hlt⟩ := h.length_stored
  unfold slTestMsgMaxSize at hlt
  rcases h.msgLen_cases with ⟨-, hlen⟩ | ⟨-, hlen⟩ <;> omega

theorem SlTestResult.CreatedBy.stored_of_fits (h : r.CreatedBy c) (hfits : c.Fits) :
    r.stored = c.message := by
  rw [h.stored, List.take_of_length_le (Nat.le_sub_one_of_lt hfits.1)]
  exact cstr_eq_self_iff.mpr hfits.2

theorem SlTestResult.CreatedBy.trueLength_iff (h : r.CreatedBy c) : r.TrueLength ↔ c.Fits := by
  constructor
  · rintro ⟨hlen, hlt⟩
    rcases h.msgLen_cases with ⟨-, hmsg⟩ | ⟨-, hhuge⟩
    · have hfull : (cstr (c.message.take (slTestMsgMaxSize - 1))).length = c.message.length := by
        rw [← h.stored, ← hlen, hmsg]
      rw [List.take_of_length_le (by omega)] at hfull
      exact ⟨by omega, cstr_eq_self_iff.mp ((List.takeWhile_prefix _).eq_of_length hfull)⟩
    · unfold slTestMsgMaxSize at hlt
      omega
  · intro hfits
    have hmax : slTestMsgMaxSize ≤ intMax := by decide
    rcases h.msgLen_cases with ⟨-, hmsg⟩ | ⟨hhuge, -⟩
    · exact ⟨by rw [h.stored_of_fits hfits, hmsg], hmsg ▸ hfits.1⟩
    · exact absurd hfits.1 (by omega)

end Created

end Streamlike
