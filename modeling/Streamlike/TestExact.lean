import Streamlike.TestRead

/-!
# The check for an exact read

`sl_test_read_exact` of `test.h`. Every read of it asks for a whole block,
also the last one, which then has to give no more than what is left to
compare. So the check does not accept every stream that begins with the
expected data: behind a part of a block, the stream has to end as well
(`read_exact_iff`). With blocks of no bytes it never returns.
-/

namespace Streamlike

open CFormat

variable {σ : Type}

/-! ## The check -/

/-- An `sl_test_result` of `sl_test_read_exact`. -/
def exactResult (env : TestEnv) (line status : Int) (text : Bytes) : SlTestPtr :=
  TestCall.create ⟨env.block, env.file, lit "sl_test_read_exact", line, status, ⟨text, false⟩⟩ []

/-- The two failures of a pass. -/
def exactCount (env : TestEnv) (bytes buf_len : Nat) : SlTestPtr :=
  exactResult env 177 statusFail (lit "Read " ++ formatSize bytes
    ++ lit " bytes while expecting " ++ formatSize buf_len ++ lit " bytes.")

def exactDiffers (env : TestEnv) : SlTestPtr :=
  exactResult env 181 statusFail (lit "Failed verifying data read.")

/-- The loop; `none` when the fuel runs out. -/
def readExact (env : TestEnv) (expected_data : ByteMem UInt8) (buf_len : Nat) :
    Nat → StreamlikeT σ → ByteMem UInt8 → Nat → Nat → Option (SlTestPtr × StreamlikeT σ)
  | 0, _, _, _, _ => none
  | fuel + 1, stream, buffer, off, data_len =>
      if 0 < data_len then
        let expected_len := if buf_len < data_len then buf_len else data_len
        let (bytes, buffer, stream) := slRead stream buffer buf_len
        if bytes ≠ expected_len then
          some (exactCount env bytes buf_len, stream)
        -- memcmp
        else if buffer.read 0 expected_len ≠ expected_data.read off expected_len then
          some (exactDiffers env, stream)
        else
          readExact env expected_data buf_len fuel stream buffer (off + bytes) (data_len - bytes)
      else some (exactResult env 186 statusOk (lit "OK"), stream)

/-- `sl_test_read_exact`, with the stream that it leaves. -/
def slTestReadExact (fuel : Nat) (env : TestEnv) (stream : StreamlikeT σ)
    (expected_data : ByteMem UInt8) (data_len buf_len : Nat) :
    Option (SlTestPtr × StreamlikeT σ) :=
  match env.buffer with
  | none =>
      some (exactResult env 170 statusFail (lit "Couldn't allocate buffer."), stream)
  | some buffer => readExact env expected_data buf_len fuel stream buffer 0 data_len

/-! ## Results -/

theorem not_passed_exact (env : TestEnv) (line : Int) (text : Bytes) :
    ¬ Passed (exactResult env line statusFail text) := by
  rintro ⟨r, inner, hr, hok⟩
  have hstatus := (create_eq hr).2.status.symm.trans hok
  exact absurd (show statusFail = statusOk from hstatus) (by decide)

theorem passed_exact_iff (env : TestEnv) :
    Passed (exactResult env 186 statusOk (lit "OK")) ↔ env.block.isSome = true := by
  constructor
  · rintro ⟨r, inner, hr, -⟩
    cases hb : env.block with
    | none =>
        rw [exactResult, hb] at hr
        cases hr
    | some block => rfl
  · intro hsome
    obtain ⟨block, hblock⟩ := Option.isSome_iff_exists.mp hsome
    obtain ⟨r, hr⟩ := create_returns ⟨env.block, env.file, lit "sl_test_read_exact", 186,
      statusOk, ⟨lit "OK", false⟩⟩ [] hblock (by
        change (testHeader statusOk (lit "sl_test_read_exact") 186).bytes.length ≤ intMax
        decide)
    exact ⟨r, [], hr, (create_eq hr).2.status⟩

/-! ## The loop -/

/-- What is expected is the beginning of the content, and where it ends in a
block the content ends too. -/
structure ExactPart (R : Bytes) (expected : Bytes) (buf_len : Nat) : Prop where
  part : R.take expected.length = expected
  ends : buf_len ∣ expected.length ∨ R.length = expected.length

/-- What one read of a block has to give. -/
theorem ExactPart.count {R expected : Bytes} {buf_len : Nat} (h : ExactPart R expected buf_len)
    (hpos : 0 < expected.length) :
    min buf_len R.length = min buf_len expected.length := by
  have hle : expected.length ≤ R.length := by
    have hlength := congrArg List.length h.part
    rw [List.length_take] at hlength
    omega
  rcases h.ends with hdvd | heq
  · have hblock := Nat.le_of_dvd hpos hdvd
    omega
  · rw [heq]

/-- One block less. -/
theorem exactPart_step {R expected : Bytes} {buf_len : Nat} {k : Nat}
    (hk : k = min buf_len expected.length) (hcount : min buf_len R.length = k)
    (hsame : R.take k = expected.take k) :
    ExactPart R expected buf_len ↔ ExactPart (R.drop k) (expected.drop k) buf_len := by
  have hpart : R.take expected.length = expected
      ↔ (R.drop k).take (expected.length - k) = expected.drop k := by
    obtain ⟨rest, hrest⟩ := Nat.exists_eq_add_of_le (show k ≤ expected.length by omega)
    rw [hrest, Nat.add_sub_cancel_left, List.take_add, hsame]
    nth_rewrite 2 [← List.take_append_drop k expected]
    exact List.append_right_inj _
  have hends : buf_len ∣ expected.length ∨ R.length = expected.length
      ↔ buf_len ∣ expected.length - k ∨ R.length - k = expected.length - k := by
    rcases Nat.lt_or_ge buf_len expected.length with hlt | hge
    · obtain rfl : k = buf_len := by omega
      rw [Nat.dvd_sub_self_right]
      omega
    · obtain rfl : k = expected.length := by omega
      rw [Nat.sub_self]
      refine iff_of_true ?_ (.inl (Nat.dvd_zero _))
      rcases Nat.lt_or_ge expected.length buf_len with hpart | hfull
      · omega
      · exact .inl (Nat.le_antisymm hge hfull ▸ Nat.dvd_refl _)
  constructor
  · rintro ⟨h₁, h₂⟩
    refine ⟨?_, ?_⟩ <;> rw [List.length_drop]
    · exact hpart.mp h₁
    · rw [List.length_drop]
      exact hends.mp h₂
  · rintro ⟨h₁, h₂⟩
    rw [List.length_drop] at h₁ h₂
    rw [List.length_drop] at h₂
    exact ⟨hpart.mpr h₁, hends.mpr h₂⟩

/-- A pass, by what its read gives. -/
theorem readExact_pass {env : TestEnv} {expected_data : ByteMem UInt8} {buf_len fuel : Nat}
    {stream stream₁ : StreamlikeT σ} {buffer buffer₁ : ByteMem UInt8} {off data_len bytes : Nat}
    (hpos : 0 < data_len) (hr : slRead stream buffer buf_len = (bytes, buffer₁, stream₁)) :
    readExact env expected_data buf_len (fuel + 1) stream buffer off data_len
      = if bytes ≠ min buf_len data_len then some (exactCount env bytes buf_len, stream₁)
        else if buffer₁.read 0 bytes ≠ expected_data.read off bytes then
          some (exactDiffers env, stream₁)
        else readExact env expected_data buf_len fuel stream₁ buffer₁ (off + bytes)
          (data_len - bytes) := by
  have hmin : (if buf_len < data_len then buf_len else data_len) = min buf_len data_len := by
    split <;> omega
  rw [readExact, if_pos hpos, hr, hmin]
  dsimp only
  split
  · rfl
  · next heq => rw [← not_not.mp heq]

/-- The loop returns within a pass for each block. -/
theorem readExact_conforming {stream₀ : StreamlikeT σ} {D : Bytes} (hconf : stream₀.Conforming D)
    (env : TestEnv) (expected_data : ByteMem UInt8) {buf_len : Nat} (blocks : Nat) :
    ∀ (stream : StreamlikeT σ) (buffer : ByteMem UInt8) (off data_len : Nat) {short : Bool},
      data_len ≤ blocks * buf_len →
      (usage stream₀).Reach Lts.Any ⟨stream, off, short⟩ →
      ∃ result, (∀ fuel, blocks < fuel →
          readExact env expected_data buf_len fuel stream buffer off data_len = some result)
        ∧ (Passed result.1 ↔ env.block.isSome = true
          ∧ ExactPart (D.drop off) (expected_data.read off data_len) buf_len) := by
  induction blocks with
  | zero =>
      intro stream buffer off data_len short hblocks _
      obtain rfl : data_len = 0 := by omega
      refine ⟨(exactResult env 186 statusOk (lit "OK"), stream), fun fuel hfuel => ?_, ?_⟩
      · obtain ⟨fuel, rfl⟩ := Nat.exists_eq_succ_of_ne_zero hfuel.ne'
        rfl
      · rw [passed_exact_iff]
        exact (and_iff_left ⟨rfl, .inl (Nat.dvd_zero _)⟩).symm
  | succ blocks ih =>
      intro stream buffer off data_len short hblocks h
      rcases Nat.eq_zero_or_pos data_len with rfl | hpos
      · obtain ⟨result, hruns, hpassed⟩ := ih stream buffer off 0 (Nat.zero_le _) h
        exact ⟨result, fun fuel hfuel => hruns fuel (Nat.lt_of_succ_lt hfuel), hpassed⟩
      have hread := read_conforming h hconf buffer buf_len
      rcases hr : slRead stream buffer buf_len with ⟨bytes, buffer₁, stream₁⟩
      rw [hr] at hread
      obtain ⟨hcount, hbytes, hread⟩ := hread
      have hlength : (expected_data.read off data_len).length = data_len :=
        ByteMem.length_read _ _ _
      have hgot : buffer₁.read 0 bytes = (D.drop off).take bytes := by
        rw [hbytes, hcount, List.take_eq_take_iff, Nat.min_assoc, Nat.min_self]
      by_cases hlen : bytes = min buf_len data_len
      · have hexpect : expected_data.read off bytes
            = (expected_data.read off data_len).take bytes :=
          (ByteMem.take_read _ _ (by omega)).symm
        by_cases hsame : buffer₁.read 0 bytes = expected_data.read off bytes
        · have hle : data_len - bytes ≤ blocks * buf_len := by
            rw [Nat.succ_mul] at hblocks
            omega
          rw [← hcount] at hread
          obtain ⟨result, hruns, hpassed⟩ :=
            ih stream₁ buffer₁ (off + bytes) (data_len - bytes) hle hread
          refine ⟨result, fun fuel hfuel => ?_, ?_⟩
          · obtain ⟨fuel, rfl⟩ := Nat.exists_eq_succ_of_ne_zero (Nat.ne_zero_of_lt hfuel)
            rw [readExact_pass hpos hr, if_neg (not_not.mpr hlen), if_neg (not_not.mpr hsame)]
            exact hruns fuel (Nat.lt_of_succ_lt_succ hfuel)
          · rw [hpassed, exactPart_step (by rw [hlength]; exact hlen) hcount.symm
              (by rw [← hgot, hsame, hexpect]), List.drop_drop, ByteMem.drop_read _ _ (by omega)]
        · refine ⟨(exactDiffers env, stream₁), fun fuel hfuel => ?_,
            iff_of_false (not_passed_exact _ _ _) ?_⟩
          · obtain ⟨fuel, rfl⟩ := Nat.exists_eq_succ_of_ne_zero (Nat.ne_zero_of_lt hfuel)
            rw [readExact_pass hpos hr, if_neg (not_not.mpr hlen), if_pos hsame]
          · rintro ⟨-, hpart⟩
            refine hsame ?_
            rw [hgot, hexpect, ← hpart.part, hlength, List.take_take, Nat.min_eq_left (by omega)]
      · refine ⟨(exactCount env bytes buf_len, stream₁), fun fuel hfuel => ?_,
          iff_of_false (not_passed_exact _ _ _) ?_⟩
        · obtain ⟨fuel, rfl⟩ := Nat.exists_eq_succ_of_ne_zero (Nat.ne_zero_of_lt hfuel)
          rw [readExact_pass hpos hr, if_pos hlen]
        · rintro ⟨-, hpart⟩
          have hmin := hpart.count (by rw [hlength]; exact hpos)
          rw [hlength] at hmin
          exact hlen (hcount.trans hmin)

/-- With blocks of no bytes nothing gets less. -/
theorem readExact_stuck {stream₀ : StreamlikeT σ} {D : Bytes} (hconf : stream₀.Conforming D)
    (env : TestEnv) (expected_data : ByteMem UInt8) {data_len : Nat} (hpos : 0 < data_len)
    (fuel : Nat) : ∀ (stream : StreamlikeT σ) (buffer : ByteMem UInt8) (off : Nat) {short : Bool},
      (usage stream₀).Reach Lts.Any ⟨stream, off, short⟩ →
      readExact env expected_data 0 fuel stream buffer off data_len = none := by
  induction fuel with
  | zero => intro stream buffer off short _; rfl
  | succ fuel ih =>
      intro stream buffer off short h
      have hread := read_conforming h hconf buffer 0
      rcases hr : slRead stream buffer 0 with ⟨bytes, buffer₁, stream₁⟩
      rw [hr] at hread
      obtain ⟨hcount, -, hread⟩ := hread
      rw [Nat.zero_min] at hcount hread
      subst hcount
      rw [readExact, if_pos hpos, hr, if_pos hpos]
      exact ih stream₁ buffer₁ (off + 0) hread

/-- **The check for an exact read**, for a conforming stream. With blocks
that are not empty it returns, and passes just when the allocations succeed,
the content begins with the expected data, and either these fill their last
block or the content ends with them. With empty blocks, once it has got its
buffer, it never returns unless nothing is expected. -/
theorem read_exact_iff (stream : StreamlikeT σ) (D : Bytes) (hconf : stream.Conforming D)
    (env : TestEnv) (expected_data : ByteMem UInt8) (data_len buf_len : Nat) :
    (0 < buf_len → ∃ result, (∀ fuel, data_len / buf_len + 1 < fuel →
        slTestReadExact fuel env stream expected_data data_len buf_len = some result)
      ∧ (Passed result.1 ↔ env.buffer.isSome = true ∧ env.block.isSome = true
        ∧ D.take data_len = expected_data.read 0 data_len
        ∧ (buf_len ∣ data_len ∨ D.length = data_len)))
      ∧ (buf_len = 0 → 0 < data_len → env.buffer.isSome = true → ∀ fuel,
        slTestReadExact fuel env stream expected_data data_len buf_len = none) := by
  refine ⟨fun hbuf => ?_, fun hbuf hpos hsome fuel => ?_⟩
  · cases hb : env.buffer with
    | none =>
        refine ⟨_, fun fuel _ => by rw [slTestReadExact, hb], ?_⟩
        simp [not_passed_exact]
    | some buffer =>
        have hblocks : data_len ≤ (data_len / buf_len + 1) * buf_len := by
          rw [Nat.mul_comm]
          exact (Nat.lt_mul_div_succ data_len hbuf).le
        obtain ⟨result, hruns, hpassed⟩ := readExact_conforming hconf env expected_data
          (data_len / buf_len + 1) stream buffer 0 data_len hblocks (.init rfl)
        refine ⟨result, fun fuel hfuel => ?_, ?_⟩
        · rw [slTestReadExact, hb]
          exact hruns fuel hfuel
        · have hpart : ExactPart D (expected_data.read 0 data_len) buf_len
              ↔ D.take data_len = expected_data.read 0 data_len
                ∧ (buf_len ∣ data_len ∨ D.length = data_len) := by
            constructor
            · rintro ⟨h₁, h₂⟩
              rw [ByteMem.length_read] at h₁ h₂
              exact ⟨h₁, h₂⟩
            · rintro ⟨h₁, h₂⟩
              exact ⟨by rwa [ByteMem.length_read], by rwa [ByteMem.length_read]⟩
          rw [hpassed, List.drop_zero, hpart]
          exact (and_iff_right rfl).symm
  · obtain ⟨buffer, hb⟩ := Option.isSome_iff_exists.mp hsome
    rw [slTestReadExact, hb, hbuf]
    exact readExact_stuck hconf env expected_data hpos fuel stream buffer 0 (.init rfl)

/-- Of three bytes, the first two pass in one block of two. -/
theorem read_exact_iff_run :
    ∃ result, slTestReadExact 3 .ample (contentStream false [1, 2, 3])
        (ByteMem.write (fun _ => 0) 0 [1, 2]) 2 2 = some result ∧ Passed result.1 := by
  obtain ⟨result, hruns, hiff⟩ := (read_exact_iff (contentStream false [1, 2, 3]) [1, 2, 3]
    (contentStream_conforming _ _) .ample (ByteMem.write (fun _ => 0) 0 [1, 2]) 2 2).1 (by decide)
  exact ⟨result, hruns 3 (by decide), hiff.mpr ⟨rfl, rfl, by decide, .inl (by decide)⟩⟩

end Streamlike
