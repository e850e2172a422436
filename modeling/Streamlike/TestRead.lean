import Streamlike.Lts
import Streamlike.TestResult

/-!
# The conformance check for streams

The callbacks of `streamlike_t` that a reader calls, and
`sl_test_read_until_eof` of `test.h`, which reads a stream in blocks and
compares it with the data it is expected to have. The loop reads the full
blocks and wants no end of file behind any of them, also behind the last:
a stream that raises it with its last byte is refused when the length is a
multiple of the block (`read_until_eof_iff`).
-/

namespace Streamlike

open CFormat

variable {σ : Type}

/-! ## Streams -/

/-- `streamlike_t`: the context, and the callbacks to read, which gives the
count, the buffer and the context after the call, to ask for the end of
file and to ask for an error. -/
structure StreamlikeT (σ : Type) where
  context : σ
  read : σ → ByteMem UInt8 → Nat → Nat × ByteMem UInt8 × σ
  eof : σ → Int × σ
  error : σ → Int × σ

def slRead (stream : StreamlikeT σ) (buffer : ByteMem UInt8) (size : Nat) :
    Nat × ByteMem UInt8 × StreamlikeT σ :=
  let (bytes, buffer, context) := stream.read stream.context buffer size
  (bytes, buffer, { stream with context })

def slEof (stream : StreamlikeT σ) : Int × StreamlikeT σ :=
  let (ret, context) := stream.eof stream.context
  (ret, { stream with context })

def slError (stream : StreamlikeT σ) : Int × StreamlikeT σ :=
  let (ret, context) := stream.error stream.context
  (ret, { stream with context })

/-! ## The check -/

/-- `__FILE__`, and what the allocations of the buffer and of the result
give. -/
structure TestEnv where
  file : Bytes
  buffer : Option (ByteMem UInt8)
  block : Option (ByteMem UInt8)

/-- An `sl_test_result` of `sl_test_read_until_eof`. -/
def testResult (env : TestEnv) (line status : Int) (text : Bytes) : SlTestPtr :=
  slTestCreate env.block env.file (lit "sl_test_read_until_eof") line status [] ⟨text, false⟩

/-- `sl_test_fail`. -/
def testFail (env : TestEnv) (line : Int) (text : Bytes) : SlTestPtr :=
  testResult env line statusFail text

/-- `sl_test_ok`. -/
def testOk (env : TestEnv) (line : Int) : SlTestPtr := testResult env line statusOk (lit "OK")

/-- `%zd`. -/
def formatSize (n : Nat) : Bytes := formatInt (toSsizeT n)

/-- One pass of the loop, up to the subtraction: the result that it returns
with, or the buffer and the stream that it goes on with. -/
def readBlock (env : TestEnv) (expected_data : ByteMem UInt8) (buf_len : Nat)
    (stream : StreamlikeT σ) (buffer : ByteMem UInt8) (off : Nat) :
    Except (SlTestPtr × StreamlikeT σ) (ByteMem UInt8 × StreamlikeT σ) :=
  let (bytes, buffer, stream) := slRead stream buffer buf_len
  if bytes ≠ buf_len then
    .error (testFail env 206 (lit "Read " ++ formatSize bytes ++ lit " bytes while expecting "
      ++ formatSize buf_len ++ lit " bytes."), stream)
  -- memcmp
  else if buffer.read 0 buf_len ≠ expected_data.read off buf_len then
    .error (testFail env 211 (lit "Failed verifying data read."), stream)
  else
    let (eof, stream) := slEof stream
    if eof ≠ 0 then .error (testFail env 215 (lit "Unexpected end-of-file."), stream)
    else
      let (ret, stream) := slError stream
      if ret ≠ 0 then
        .error (testFail env 220 (lit "Unexpected error (" ++ formatInt ret
          ++ lit ") on stream."), stream)
      else .ok (buffer, stream)

/-- Behind the loop: the last block. -/
def readLast (env : TestEnv) (expected_data : ByteMem UInt8) (buf_len : Nat)
    (stream : StreamlikeT σ) (buffer : ByteMem UInt8) (off data_len : Nat) :
    SlTestPtr × StreamlikeT σ :=
  let (bytes, buffer, stream) := slRead stream buffer buf_len
  if bytes ≠ data_len then
    (testFail env 228 (lit "Read " ++ formatSize bytes ++ lit " bytes while expecting "
      ++ formatSize data_len ++ lit " bytes before end-of-file."), stream)
  -- memcmp
  else if buffer.read 0 data_len ≠ expected_data.read off data_len then
    (testFail env 232 (lit "Failed verifying data read just before end-of-file."), stream)
  else
    let (ret, stream) := slError stream
    if ret ≠ 0 then
      (testFail env 238 (lit "Unexpected error (" ++ formatInt ret ++ lit ") on stream."), stream)
    else
      let (eof, stream) := slEof stream
      if eof = 0 then (testFail env 242 (lit "Not found expected end-of-file."), stream)
      else (testOk env 244, stream)

/-- The loop and what is behind it; `none` when the fuel runs out.
`expected_data + off` is where the pointer has come. -/
def readBlocks (env : TestEnv) (expected_data : ByteMem UInt8) (buf_len : Nat) :
    Nat → StreamlikeT σ → ByteMem UInt8 → Nat → Nat → Option (SlTestPtr × StreamlikeT σ)
  | 0, _, _, _, _ => none
  | fuel + 1, stream, buffer, off, data_len =>
      if buf_len ≤ data_len then
        match readBlock env expected_data buf_len stream buffer off with
        | .error result => some result
        | .ok (buffer, stream) =>
            readBlocks env expected_data buf_len fuel stream buffer (off + buf_len)
              (data_len - buf_len)
      else some (readLast env expected_data buf_len stream buffer off data_len)

/-- `sl_test_read_until_eof`, with the stream that it leaves. -/
def slTestReadUntilEof (fuel : Nat) (env : TestEnv) (stream : StreamlikeT σ)
    (expected_data : ByteMem UInt8) (data_len buf_len : Nat) :
    Option (SlTestPtr × StreamlikeT σ) :=
  match env.buffer with
  | none => some (testFail env 200 (lit "Couldn't allocate buffer."), stream)
  | some buffer => readBlocks env expected_data buf_len fuel stream buffer 0 data_len

/-! ## Conforming streams -/

/-- The calls of a reader. -/
inductive StreamCall where
  | read (buffer : ByteMem UInt8) (size : Nat)
  | eof
  | error

/-- A stream in use: how many bytes it has delivered, and whether the last
read came up short. -/
structure Usage (σ : Type) where
  stream : StreamlikeT σ
  delivered : Nat
  short : Bool

/-- All the ways to use a stream. -/
def usage (stream : StreamlikeT σ) : Lts (Usage σ) StreamCall where
  init x := x = ⟨stream, 0, false⟩
  step
    | .read buffer size, x =>
        let (bytes, _, stream) := slRead x.stream buffer size
        some ⟨stream, x.delivered + bytes, decide (bytes < size)⟩
    | .eof, x => some { x with stream := (slEof x.stream).2 }
    | .error, x => some { x with stream := (slError x.stream).2 }

/-- The next call gives what the content `D` says. -/
structure Usage.Conforms (D : Bytes) (x : Usage σ) : Prop where
  count : ∀ buffer size,
    (slRead x.stream buffer size).1 = min size (D.drop x.delivered).length
  bytes : ∀ buffer size,
    (slRead x.stream buffer size).2.1.read 0 (slRead x.stream buffer size).1
      = (D.drop x.delivered).take size
  error : (slError x.stream).1 = 0
  before : x.delivered < D.length → (slEof x.stream).1 = 0
  behind : x.short = true → (slEof x.stream).1 ≠ 0

/-- A stream at position 0 that conforms with content `D`. Between its last
byte and the first short read it may raise the end of file or not. -/
def StreamlikeT.Conforming (stream : StreamlikeT σ) (D : Bytes) : Prop :=
  ∀ x, (usage stream).Reach Lts.Any x → x.Conforms D

/-! ## Results -/

/-- The check returns `SL_TEST_OK`. -/
def Passed (result : SlTestPtr) : Prop :=
  ∃ (r : SlTestResult) (inner : SlTestPtr), result = r :: inner ∧ r.status = statusOk

theorem status_of_testResult {env : TestEnv} {line status : Int} {text : Bytes}
    {r : SlTestResult} {inner : SlTestPtr} (h : testResult env line status text = r :: inner) :
    r.status = status :=
  (create_eq (c := ⟨env.block, env.file, lit "sl_test_read_until_eof", line, status,
    ⟨text, false⟩⟩) h).2.status

theorem not_passed_testFail (env : TestEnv) (line : Int) (text : Bytes) :
    ¬ Passed (testFail env line text) := by
  rintro ⟨r, inner, hr, hok⟩
  rw [status_of_testResult hr] at hok
  exact absurd hok (by decide)

theorem passed_testOk_iff (env : TestEnv) :
    Passed (testOk env 244) ↔ env.block.isSome = true := by
  constructor
  · rintro ⟨r, inner, hr, -⟩
    cases hb : env.block with
    | none =>
        rw [testOk, testResult, hb] at hr
        cases hr
    | some block => rfl
  · intro hsome
    obtain ⟨block, hblock⟩ := Option.isSome_iff_exists.mp hsome
    obtain ⟨r, hr⟩ := create_returns ⟨env.block, env.file, lit "sl_test_read_until_eof", 244,
      statusOk, ⟨lit "OK", false⟩⟩ [] hblock (by
        change (testHeader statusOk (lit "sl_test_read_until_eof") 244).bytes.length ≤ intMax
        decide)
    exact ⟨r, [], hr, status_of_testResult hr⟩

/-! ## One block -/

/-- The buffer and the stream after a pass of the loop that goes on. -/
def passBlock (buf_len : Nat) (x : ByteMem UInt8 × StreamlikeT σ) :
    ByteMem UInt8 × StreamlikeT σ :=
  let (_, buffer, stream) := slRead x.2 x.1 buf_len
  (buffer, (slError (slEof stream).2).2)

section Block

variable {stream₀ stream : StreamlikeT σ} {D : Bytes} {off : Nat} {short : Bool}

/-- A read of a block counts and delivers what comes next, and leaves a
stream in use. -/
theorem read_conforming (h : (usage stream₀).Reach Lts.Any ⟨stream, off, short⟩)
    (hconf : stream₀.Conforming D) (buffer : ByteMem UInt8) (buf_len : Nat) :
    let (bytes, buffer, stream) := slRead stream buffer buf_len
    bytes = min buf_len (D.drop off).length
      ∧ buffer.read 0 bytes = (D.drop off).take buf_len
      ∧ (usage stream₀).Reach Lts.Any ⟨stream, off + min buf_len (D.drop off).length,
        decide ((D.drop off).length < buf_len)⟩ := by
  have hcount : (slRead stream buffer buf_len).1 = _ := (hconf _ h).count buffer buf_len
  refine ⟨hcount, (hconf _ h).bytes buffer buf_len, h.step (a := .read buffer buf_len) trivial ?_⟩
  have hshort : min buf_len (D.drop off).length < buf_len ↔ (D.drop off).length < buf_len := by
    omega
  simp only [usage, hcount, hshort]
  rfl

/-- A pass of the loop finds a difference, or the end of file behind a block
that was the last, or goes on. -/
theorem readBlock_conforming (h : (usage stream₀).Reach Lts.Any ⟨stream, off, short⟩)
    (hconf : stream₀.Conforming D) (env : TestEnv) (expected_data : ByteMem UInt8)
    (buffer : ByteMem UInt8) (buf_len : Nat) :
    (∃ result, readBlock env expected_data buf_len stream buffer off = .error result
        ∧ ¬ Passed result.1
        ∧ ((D.drop off).take buf_len ≠ expected_data.read off buf_len
          ∨ D.length ≤ off + buf_len ∧ (slEof (slRead stream buffer buf_len).2.2).1 ≠ 0))
      ∨ readBlock env expected_data buf_len stream buffer off
          = .ok (passBlock buf_len (buffer, stream))
        ∧ (D.drop off).take buf_len = expected_data.read off buf_len
        ∧ (slEof (slRead stream buffer buf_len).2.2).1 = 0
        ∧ (usage stream₀).Reach Lts.Any
          ⟨(passBlock buf_len (buffer, stream)).2, off + buf_len, false⟩ := by
  have hread := read_conforming h hconf buffer buf_len
  unfold readBlock passBlock
  rcases hr : slRead stream buffer buf_len with ⟨bytes, buffer₁, stream₁⟩
  rw [hr] at hread
  obtain ⟨hcount, hbytes, hread⟩ := hread
  dsimp only
  by_cases hlen : buf_len ≤ (D.drop off).length
  · obtain rfl : bytes = buf_len := hcount.trans (Nat.min_eq_left hlen)
    rw [Nat.min_eq_left hlen, decide_eq_false (Nat.not_lt.mpr hlen)] at hread
    rw [if_neg (not_not.mpr rfl), hbytes]
    by_cases hsame : (D.drop off).take bytes = expected_data.read off bytes
    · rw [if_neg (not_not.mpr hsame)]
      have hbefore := (hconf _ hread).before
      have heof := hread.step (a := .eof) trivial rfl
      rcases he : slEof stream₁ with ⟨eof, stream₂⟩
      simp only [he] at hbefore heof ⊢
      by_cases hzero : eof = 0
      · have hnone := (hconf _ heof).error
        have hnext := heof.step (a := .error) trivial rfl
        rcases hret : slError stream₂ with ⟨ret, stream₃⟩
        simp only [hret] at hnone hnext ⊢
        right
        rw [if_neg (not_not.mpr hzero), if_neg (not_not.mpr hnone)]
        exact ⟨rfl, hsame, hzero, hnext⟩
      · left
        rw [if_pos hzero]
        refine ⟨_, rfl, not_passed_testFail _ _ _, .inr ⟨?_, hzero⟩⟩
        by_contra hmore
        exact hzero (hbefore (Nat.lt_of_not_le hmore))
    · left
      rw [if_pos hsame]
      exact ⟨_, rfl, not_passed_testFail _ _ _, .inl hsame⟩
  · left
    rw [if_pos (by omega)]
    refine ⟨_, rfl, not_passed_testFail _ _ _, .inl fun hsame => hlen ?_⟩
    have hlength := congrArg List.length hsame
    rw [List.length_take, ByteMem.length_read] at hlength
    omega

/-- Behind the loop the rest of the content is compared, and the read that
came up short has raised the end of file. -/
theorem readLast_conforming (h : (usage stream₀).Reach Lts.Any ⟨stream, off, short⟩)
    (hconf : stream₀.Conforming D) (env : TestEnv) (expected_data buffer : ByteMem UInt8)
    {buf_len data_len : Nat} (hlast : data_len < buf_len) :
    Passed (readLast env expected_data buf_len stream buffer off data_len).1
      ↔ env.block.isSome = true ∧ D.drop off = expected_data.read off data_len := by
  have hread := read_conforming h hconf buffer buf_len
  unfold readLast
  rcases hr : slRead stream buffer buf_len with ⟨bytes, buffer₁, stream₁⟩
  rw [hr] at hread
  obtain ⟨hcount, hbytes, hread⟩ := hread
  dsimp only
  have hlength : (expected_data.read off data_len).length = data_len := ByteMem.length_read _ _ _
  by_cases hlen : bytes = data_len
  · obtain rfl := hlen
    have hrest : (D.drop off).length = bytes := by omega
    rw [List.take_of_length_le (by omega)] at hbytes
    rw [decide_eq_true (by omega : (D.drop off).length < buf_len)] at hread
    rw [if_neg (not_not.mpr rfl), hbytes]
    by_cases hsame : D.drop off = expected_data.read off bytes
    · rw [if_neg (not_not.mpr hsame)]
      have hnone := (hconf _ hread).error
      have herror := hread.step (a := .error) trivial rfl
      rcases hret : slError stream₁ with ⟨ret, stream₂⟩
      simp only [hret] at hnone herror ⊢
      have hend := (hconf _ herror).behind rfl
      rcases he : slEof stream₂ with ⟨eof, stream₃⟩
      simp only [he] at hend ⊢
      rw [if_neg (not_not.mpr hnone), if_neg hend, passed_testOk_iff, and_iff_left hsame]
    · rw [if_pos hsame]
      exact iff_of_false (not_passed_testFail _ _ _) fun h => hsame h.2
  · rw [if_pos hlen]
    refine iff_of_false (not_passed_testFail _ _ _) fun h => hlen ?_
    rw [hcount, h.2, hlength]
    exact Nat.min_eq_right hlast.le

end Block

/-! ## The loop -/

/-- When the full blocks are all that is expected, the end of file is not
raised yet by the read of the last of them. -/
def EofLate (buf_len data_len : Nat) (x : ByteMem UInt8 × StreamlikeT σ) : Prop :=
  ∀ k, data_len = (k + 1) * buf_len →
    let (buffer, stream) := Nat.iterate (passBlock buf_len) k x
    (slEof (slRead stream buffer buf_len).2.2).1 = 0

/-- One block less is expected after a pass. -/
theorem eofLate_pass_iff {buf_len data_len : Nat} {buffer : ByteMem UInt8}
    {stream : StreamlikeT σ} (hle : buf_len ≤ data_len)
    (hzero : (slEof (slRead stream buffer buf_len).2.2).1 = 0) :
    EofLate buf_len data_len (buffer, stream)
      ↔ EofLate buf_len (data_len - buf_len) (passBlock buf_len (buffer, stream)) := by
  constructor
  · intro h k hk
    refine h (k + 1) ?_
    rw [Nat.succ_mul, ← hk]
    omega
  · intro h k hk
    cases k with
    | zero => exact hzero
    | succ k =>
        refine h k ?_
        rw [hk, Nat.succ_mul]
        omega

/-- The loop returns within a pass for each full block. It passes what is
the rest of the content, unless the end of file comes with the last byte of
the last full block. -/
theorem readBlocks_conforming {stream₀ : StreamlikeT σ} {D : Bytes}
    (hconf : stream₀.Conforming D) (env : TestEnv) (expected_data : ByteMem UInt8) {buf_len : Nat}
    (hbuf : 0 < buf_len) (blocks : Nat) :
    ∀ (stream : StreamlikeT σ) (buffer : ByteMem UInt8) (off data_len : Nat) {short : Bool},
      data_len / buf_len = blocks →
      (usage stream₀).Reach Lts.Any ⟨stream, off, short⟩ →
      ∃ result, (∀ fuel, blocks < fuel →
          readBlocks env expected_data buf_len fuel stream buffer off data_len = some result)
        ∧ (Passed result.1 ↔ env.block.isSome = true
          ∧ D.drop off = expected_data.read off data_len
          ∧ EofLate buf_len data_len (buffer, stream)) := by
  induction blocks with
  | zero =>
      intro stream buffer off data_len short hblocks h
      have hlast : data_len < buf_len := (Nat.div_eq_zero_iff_lt hbuf).mp hblocks
      have hlate : EofLate buf_len data_len (buffer, stream) := fun k hk => by
        rw [Nat.succ_mul] at hk
        omega
      refine ⟨readLast env expected_data buf_len stream buffer off data_len,
        fun fuel hfuel => ?_, ?_⟩
      · obtain ⟨fuel, rfl⟩ := Nat.exists_eq_succ_of_ne_zero hfuel.ne'
        rw [readBlocks, if_neg (Nat.not_le.mpr hlast)]
      · rw [readLast_conforming h hconf env expected_data buffer hlast, and_iff_left hlate]
  | succ blocks ih =>
      intro stream buffer off data_len short hblocks h
      have hle : buf_len ≤ data_len := (Nat.div_pos_iff.mp (by omega)).2
      rcases readBlock_conforming h hconf env expected_data buffer buf_len with
        ⟨result, hblock, hfail, hwhy⟩ | ⟨hblock, hsame, hzero, hnext⟩
      · refine ⟨result, fun fuel hfuel => ?_, iff_of_false hfail ?_⟩
        · obtain ⟨fuel, rfl⟩ := Nat.exists_eq_succ_of_ne_zero (Nat.ne_zero_of_lt hfuel)
          rw [readBlocks, if_pos hle, hblock]
        · rintro ⟨-, hall, hlate⟩
          rcases hwhy with hdiffer | ⟨hend, heof⟩
          · exact hdiffer (by rw [hall, ByteMem.take_read _ _ hle])
          · -- the end of file behind the last block of the content
            have hlength := congrArg List.length hall
            rw [List.length_drop, ByteMem.length_read] at hlength
            exact heof (hlate 0 (by omega))
      · obtain ⟨result, hruns, hpassed⟩ := ih (passBlock buf_len (buffer, stream)).2
          (passBlock buf_len (buffer, stream)).1 (off + buf_len) (data_len - buf_len)
          (by rw [Nat.div_eq_sub_div hbuf hle] at hblocks; omega) hnext
        refine ⟨result, fun fuel hfuel => ?_, ?_⟩
        · obtain ⟨fuel, rfl⟩ := Nat.exists_eq_succ_of_ne_zero (Nat.ne_zero_of_lt hfuel)
          rw [readBlocks, if_pos hle, hblock]
          exact hruns fuel (Nat.lt_of_succ_lt_succ hfuel)
        · have hrest : D.drop off = expected_data.read off data_len
              ↔ D.drop (off + buf_len)
                = expected_data.read (off + buf_len) (data_len - buf_len) := by
            rw [← List.take_append_drop buf_len (D.drop off), hsame, List.drop_drop,
              ← Nat.add_sub_of_le hle, ByteMem.read_add, Nat.add_sub_cancel_left]
            exact List.append_right_inj _
          rw [hpassed, hrest, eofLate_pass_iff hle hzero]

/-- **The conformance check** returns for every conforming stream and every
block size, and accepts exactly its content when the allocations succeed
and the end of file is not raised by the read of the last full block of an
expected string of full blocks. -/
theorem read_until_eof_iff (stream : StreamlikeT σ) (D : Bytes) (hconf : stream.Conforming D)
    (env : TestEnv) (expected_data : ByteMem UInt8) (data_len buf_len : Nat)
    (hbuf : 0 < buf_len) :
    ∃ result, (∀ fuel, data_len / buf_len < fuel →
        slTestReadUntilEof fuel env stream expected_data data_len buf_len = some result)
      ∧ ((Passed result.1 ↔ D = expected_data.read 0 data_len)
        ↔ (D = expected_data.read 0 data_len → env.block.isSome = true
          ∧ ∃ buffer, env.buffer = some buffer ∧ EofLate buf_len data_len (buffer, stream))) := by
  cases hb : env.buffer with
  | none =>
      refine ⟨_, fun fuel _ => by rw [slTestReadUntilEof, hb], ?_⟩
      simp [not_passed_testFail]
  | some buffer =>
      obtain ⟨result, hruns, hpassed⟩ := readBlocks_conforming hconf env expected_data hbuf
        (data_len / buf_len) stream buffer 0 data_len rfl (.init rfl)
      rw [List.drop_zero] at hpassed
      refine ⟨result, fun fuel hfuel => ?_, ?_⟩
      · rw [slTestReadUntilEof, hb]
        exact hruns fuel hfuel
      · simp only [hpassed, Option.some.injEq, exists_eq_left']
        tauto

/-! ## Two kinds of end of file -/

/-- A stream with content `D` whose context is the position and a flag that
a short read sets. It reports the flag, as `sl_buffer` does, and if `early`
also that the position is the end, as `sl_http` does. -/
def contentStream (early : Bool) (D : Bytes) : StreamlikeT (Nat × Bool) where
  context := (0, false)
  read c buffer size :=
    let bytes := (D.drop c.1).take size
    (bytes.length, buffer.write 0 bytes, (c.1 + bytes.length, c.2 || decide (bytes.length < size)))
  eof c := (if c.2 || early && decide (D.length ≤ c.1) then 1 else 0, c)
  error c := (0, c)

/-- The context of a content stream in use. -/
structure ContentOk (early : Bool) (D : Bytes) (x : Usage (Nat × Bool)) (flag : Bool) : Prop where
  stream : x.stream = { contentStream early D with context := (x.delivered, flag) }
  flagged : flag = true → D.length ≤ x.delivered
  short : x.short = true → flag = true

theorem contentOk_of_reach {early : Bool} {D : Bytes} {x : Usage (Nat × Bool)}
    (h : (usage (contentStream early D)).Reach Lts.Any x) : ∃ flag, ContentOk early D x flag := by
  refine h.invariant (I := fun x => ∃ flag, ContentOk early D x flag) ?_ ?_
  · rintro _ rfl
    exact ⟨false, rfl, nofun, nofun⟩
  rintro ⟨stream, delivered, short⟩ a x' - ⟨flag, hstream, hflag, hshort⟩ - hstep
  dsimp only at hstream hflag hshort
  subst hstream
  cases a with
  | read buffer size =>
      obtain rfl := Option.some.inj hstep
      refine ⟨_, rfl, fun h => ?_, fun h => ?_⟩
      · rcases Bool.or_eq_true _ _ |>.mp h with h | h
        · exact (hflag h).trans (Nat.le_add_right _ _)
        · have hlt : ((D.drop delivered).take size).length < size := of_decide_eq_true h
          change D.length ≤ delivered + ((D.drop delivered).take size).length
          rw [List.length_take, List.length_drop] at hlt ⊢
          omega
      · exact Bool.or_eq_true _ _ |>.mpr (.inr h)
  | eof | error =>
      obtain rfl := Option.some.inj hstep
      exact ⟨flag, rfl, hflag, hshort⟩

/-- Both kinds conform. -/
theorem contentStream_conforming (early : Bool) (D : Bytes) :
    (contentStream early D).Conforming D := by
  intro x hx
  obtain ⟨flag, hstream, hflag, hshort⟩ := contentOk_of_reach hx
  obtain ⟨stream, delivered, short⟩ := x
  dsimp only at hstream hflag hshort
  subst hstream
  refine ⟨fun buffer size => ?_, fun buffer size => ?_, rfl, fun hlt => ?_, fun h => ?_⟩
  · exact List.length_take
  · exact ByteMem.read_write_self buffer 0 _
  · refine if_neg fun h => Nat.not_le.mpr hlt ?_
    rcases Bool.or_eq_true _ _ |>.mp h with h | h
    · exact hflag h
    · exact of_decide_eq_true (Bool.and_eq_true _ _ |>.mp h).2
  · obtain rfl : flag = true := hshort h
    exact Int.one_ne_zero

/-- Allocations that succeed. -/
def TestEnv.ample : TestEnv := ⟨lit "test.h", some fun _ => 0, some fun _ => 0⟩

/-- Three bytes in blocks of two, with an early end of file. -/
theorem read_until_eof_iff_run :
    ∃ result, slTestReadUntilEof 2 .ample (contentStream true [1, 2, 3])
        (ByteMem.write (fun _ => 0) 0 [1, 2, 3]) 3 2 = some result ∧ Passed result.1 := by
  obtain ⟨result, hruns, hiff⟩ := read_until_eof_iff (contentStream true [1, 2, 3]) [1, 2, 3]
    (contentStream_conforming _ _) .ample (ByteMem.write (fun _ => 0) 0 [1, 2, 3]) 3 2 (by decide)
  have hlate : EofLate 2 3 (fun _ => 0, contentStream true [1, 2, 3]) := fun k hk => by omega
  refine ⟨result, hruns 2 (by decide), (hiff.mpr fun _ => ⟨rfl, _, rfl, hlate⟩).mpr (by decide)⟩

/-- One byte in a block of one: the end of file that comes with it is
refused. -/
theorem early_eof_refused :
    ¬ ∀ (D : Bytes) (stream : StreamlikeT (Nat × Bool)), stream.Conforming D →
      ∀ (env : TestEnv) (expected_data : ByteMem UInt8) (data_len buf_len : Nat), 0 < buf_len →
        env.buffer.isSome = true → env.block.isSome = true →
        ∃ result, (∀ fuel, data_len / buf_len < fuel →
            slTestReadUntilEof fuel env stream expected_data data_len buf_len = some result)
          ∧ (Passed result.1 ↔ D = expected_data.read 0 data_len) := by
  intro hall
  obtain ⟨result, hruns, hiff⟩ := hall [1] (contentStream true [1]) (contentStream_conforming _ _)
    .ample (fun _ => 1) 1 1 (by decide) rfl rfl
  have hstatus : (slTestReadUntilEof 2 .ample (contentStream true [1]) (fun _ => 1) 1 1).map
      (fun result => result.1.map SlTestResult.status) = some [statusFail] := by decide
  rw [hruns 2 (by decide)] at hstatus
  obtain ⟨r, inner, hr, hok⟩ := hiff.mpr (by decide)
  have hmap : result.1.map SlTestResult.status = [statusFail] := Option.some.inj hstatus
  rw [hr, List.map_cons, hok] at hmap
  exact absurd (List.cons.inj hmap).1 (by decide)

end Streamlike
