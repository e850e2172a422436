import Streamlike.File
import Streamlike.TestExact

/-!
# The checks on files

The two checks of `test.h` on the stream that `sl_fopen2` makes. A file
raises its end of file by a short read only, so the stream conforms with
its content, and what is expected may end with a block. Both checks accept
what the user of a file has written to it (`file_checked`).
-/

namespace Streamlike

/-- `sl_fopen2`, as far as it is read from. A read that is undefined gives
nothing. -/
def slFopen2 (file : CFile) : StreamlikeT CFile where
  context := file
  read file buffer size := (slFreadCb file buffer size).getD (0, buffer, file)
  eof file := (slFeofCb file, file)
  error file := (slFerrorCb file, file)

/-! ## Conformance -/

section Conforming

variable {d : Bytes} {file : CFile} {pos : Nat}

theorem slRead_file (h : FileAt d file pos) (buffer : ByteMem UInt8) (size : Nat) :
    ∃ file', slRead (slFopen2 file) buffer size
        = (((d.drop pos).take size).length, buffer.write 0 ((d.drop pos).take size),
          slFopen2 file')
      ∧ FileAt d file' (pos + ((d.drop pos).take size).length)
      ∧ (file'.eof = true ↔ file.eof = true ∨ ((d.drop pos).take size).length < size) := by
  obtain ⟨file', hread, hat, heof⟩ := h.fread size
  have hcall : (slFopen2 file).read file buffer size
      = (((d.drop pos).take size).length, buffer.write 0 ((d.drop pos).take size), file') := by
    show (slFreadCb file buffer size).getD (0, buffer, file) = _
    rw [slFreadCb, hread]
    rfl
  refine ⟨file', ?_, hat, heof⟩
  rw [slRead, show (slFopen2 file).context = file from rfl, hcall]
  rfl

theorem eof_file (file : CFile) : (slEof (slFopen2 file)).1 = 0 ↔ file.eof = false := by
  show (if file.eof then 1 else 0 : Int) = 0 ↔ _
  cases file.eof <;> simp

/-- The file of a stream in use. -/
structure FileUse (d : Bytes) (x : Usage CFile) (file : CFile) : Prop where
  stream : x.stream = slFopen2 file
  at_ : FileAt d file x.delivered
  short : x.short = true → file.eof = true

theorem fileUse_of_reach (h : FileAt d file 0) {x : Usage CFile}
    (hx : (usage (slFopen2 file)).Reach Lts.Any x) : ∃ file', FileUse d x file' := by
  refine hx.invariant (I := fun x => ∃ file', FileUse d x file') ?_ ?_
  · rintro _ rfl
    exact ⟨file, rfl, h, nofun⟩
  rintro ⟨stream, delivered, short⟩ a x' - ⟨file₁, hstream, hat, hshort⟩ - hstep
  dsimp only at hstream hat hshort
  subst hstream
  cases a with
  | read buffer size =>
      obtain ⟨file₂, hread, hat', heof⟩ := slRead_file hat buffer size
      simp only [usage, hread, Option.some.injEq] at hstep
      subst hstep
      exact ⟨file₂, rfl, hat', fun h => heof.mpr (.inr (of_decide_eq_true h))⟩
  | eof | error =>
      obtain rfl := Option.some.inj hstep
      exact ⟨file₁, rfl, hat, hshort⟩

theorem file_conforming (h : FileAt d file 0) : (slFopen2 file).Conforming d := by
  intro x hx
  obtain ⟨file', hstream, hat, hshort⟩ := fileUse_of_reach h hx
  refine ⟨fun buffer size => ?_, fun buffer size => ?_, ?_, fun hlt => ?_, fun h => ?_⟩
  · obtain ⟨file₂, hread, -⟩ := slRead_file hat buffer size
    rw [hstream, hread]
    exact List.length_take
  · obtain ⟨file₂, hread, -⟩ := slRead_file hat buffer size
    rw [hstream, hread]
    exact ByteMem.read_write_self buffer 0 _
  · rw [hstream]
    show (if file'.err then 1 else 0 : Int) = 0
    rw [hat.ok.err]
    rfl
  · rw [hstream, eof_file]
    refine Bool.of_not_eq_true fun heof => Nat.not_le.mpr hlt ?_
    have hend := hat.ok.eof heof
    rwa [hat.data, hat.pos] at hend
  · rw [hstream, Ne, eof_file, hshort h]
    nofun

/-- A block that is in the content raises no end of file. -/
theorem slRead_block (h : FileAt d file pos) (heof : file.eof = false) (buf_len : Nat)
    (hin : pos + buf_len ≤ d.length) (buffer : ByteMem UInt8) :
    ∃ file', (slRead (slFopen2 file) buffer buf_len).2.2 = slFopen2 file'
      ∧ FileAt d file' (pos + buf_len) ∧ file'.eof = false := by
  obtain ⟨file', hread, hat, heof'⟩ := slRead_file h buffer buf_len
  have hlength : ((d.drop pos).take buf_len).length = buf_len := by
    rw [List.length_take, List.length_drop]
    omega
  rw [hlength] at hat heof'
  refine ⟨file', by rw [hread], hat, Bool.of_not_eq_true fun h => ?_⟩
  rcases heof'.mp h with h | h
  · rw [heof] at h
    cases h
  · exact Nat.lt_irrefl _ h

theorem file_eofLate {buf_len : Nat} (k : Nat) :
    ∀ {file : CFile} {pos : Nat}, FileAt d file pos → file.eof = false →
      pos + (k + 1) * buf_len ≤ d.length → ∀ buffer : ByteMem UInt8,
      let (buffer, stream) := Nat.iterate (passBlock buf_len) k (buffer, slFopen2 file)
      (slEof (slRead stream buffer buf_len).2.2).1 = 0 := by
  induction k with
  | zero =>
      intro file pos h heof hin buffer
      obtain ⟨file', hread, -, heof'⟩ :=
        slRead_block h heof buf_len (by omega) buffer
      show (slEof (slRead (slFopen2 file) buffer buf_len).2.2).1 = 0
      rw [hread, eof_file]
      exact heof'
  | succ k ih =>
      intro file pos h heof hin buffer
      rw [Nat.succ_mul] at hin
      obtain ⟨file', hread, hat, heof'⟩ :=
        slRead_block h heof buf_len (by omega) buffer
      have hpass : passBlock buf_len (buffer, slFopen2 file)
          = ((slRead (slFopen2 file) buffer buf_len).2.1, slFopen2 file') := by
        show ((slRead (slFopen2 file) buffer buf_len).2.1,
          (slError (slEof (slRead (slFopen2 file) buffer buf_len).2.2).2).2) = _
        rw [hread]
        rfl
      rw [Function.iterate_succ_apply, hpass]
      exact ih hat heof' (by omega) _

/-- `sl_test_read_until_eof` on a file passes just its content. -/
theorem file_until_eof (h : FileAt d file 0) (heof : file.eof = false) (env : TestEnv)
    (expected_data : ByteMem UInt8) (data_len : Nat) {buf_len : Nat} (hbuf : 0 < buf_len) :
    ∃ result, (∀ fuel, data_len / buf_len < fuel →
        slTestReadUntilEof fuel env (slFopen2 file) expected_data data_len buf_len = some result)
      ∧ (Passed result.1 ↔ env.buffer.isSome = true ∧ env.block.isSome = true
        ∧ d = expected_data.read 0 data_len) := by
  cases hb : env.buffer with
  | none =>
      refine ⟨_, fun fuel _ => by rw [slTestReadUntilEof, hb], ?_⟩
      simp [not_passed_testFail]
  | some buffer =>
      obtain ⟨result, hruns, hpassed⟩ := readBlocks_conforming (file_conforming h) env
        expected_data hbuf (data_len / buf_len) (slFopen2 file) buffer 0 data_len rfl (.init rfl)
      refine ⟨result, fun fuel hfuel => ?_, ?_⟩
      · rw [slTestReadUntilEof, hb]
        exact hruns fuel hfuel
      · have hlate : d = expected_data.read 0 data_len →
            EofLate buf_len data_len (buffer, slFopen2 file) := by
          intro hsame k hk
          have hlength := congrArg List.length hsame
          rw [ByteMem.length_read] at hlength
          exact file_eofLate k h heof (by omega) buffer
        rw [hpassed, List.drop_zero]
        constructor
        · rintro ⟨hblock, hsame, -⟩
          exact ⟨rfl, hblock, hsame⟩
        · rintro ⟨-, hblock, hsame⟩
          exact ⟨hblock, hsame, hlate hsame⟩

end Conforming

/-- **What is written to a file passes the check.** After any run of the file
stream without input or output errors in which the offsets of the seeks fit
a `long`, and which ends with a seek to the beginning: the content that the
user has read and written is just what `sl_test_read_until_eof` passes, with
blocks of any size but 0. -/
theorem file_checked (w : Nat) (hw : 0 < w) (limit : Nat) (d : Bytes) {x x' : FileSys}
    (h : (fileStream w limit d).Reach (LongOk w) x)
    (hrewind : fileStep w limit (.seek 0 slSeekSet) x = some x') :
    ∃ st, (stored (seekLimit w limit) d).Reach Lts.Any st ∧ st.trace = x'.trace
      ∧ st.data = x'.file.data
      ∧ ∀ (env : TestEnv) (expected_data : ByteMem UInt8) (data_len buf_len : Nat),
        0 < buf_len → ∃ result, (∀ fuel, data_len / buf_len < fuel →
          slTestReadUntilEof fuel env (slFopen2 x'.file) expected_data data_len buf_len
            = some result)
          ∧ (Passed result.1 ↔ env.buffer.isSome = true ∧ env.block.isSome = true
            ∧ st.data = expected_data.read 0 data_len) := by
  have hok := (files_of_reach hw h).elim fun _ h => h.2.ok
  have hlong : LongOk w x (.seek 0 slSeekSet) :=
    ⟨Int.neg_nonpos_of_nonneg (Int.pow_nonneg (by decide)), Int.pow_pos (by decide)⟩
  obtain ⟨st, hst, hfiles⟩ := files_of_reach hw (h.step hlong hrewind)
  have hat : FileAt x.file.data x'.file 0 ∧ x'.file.eof = false := by
    rw [fileStep, slFseekCb_eq, toLong_eq hw hlong.1 hlong.2] at hrewind
    rcases seekTo_cases x.file (seekLimit w limit) ((originOf slSeekSet).map
      (Origin.target x.file.pos x.file.data.length 0)) with ⟨target, heq, -, hto⟩ | ⟨hrefused, -⟩
    · obtain rfl : 0 = target := Option.some.inj heq
      rw [hto] at hrewind
      obtain rfl := Option.some.inj hrewind
      exact ⟨.sought hok 0, rfl⟩
    · exact absurd ⟨Int.le_refl 0, Int.natCast_nonneg _⟩ (hrefused 0 rfl)
  have hdata : st.data = x.file.data := hfiles.data.symm.trans hat.1.data
  rw [← hdata] at hat
  exact ⟨st, hst, hfiles.trace.symm, hfiles.data.symm,
    fun env expected_data data_len buf_len hbuf =>
      file_until_eof hat.1 hat.2 env expected_data data_len hbuf⟩

/-- Two bytes written to an empty file, in one block of two. -/
theorem file_checked_run :
    ∃ st : Stored UInt8, (stored (2 ^ 44) []).Reach Lts.Any st
      ∧ st.trace = [.write [7, 7] 2, .seek 0 (some .start) 0 0]
      ∧ ∃ result, slTestReadUntilEof 2 .ample (slFopen2 ⟨[7, 7], [], 0, false, false, .none⟩)
          (fun _ => 7) 2 2 = some result
        ∧ Passed result.1 := by
  have hwritten : (fileStream 64 (2 ^ 44) []).Reach (LongOk 64)
      ⟨⟨[], [7, 7], 2, false, false, .output⟩, [.write [7, 7] 2]⟩ :=
    .step (a := .write (fun _ => 7) 2) (.init rfl) trivial rfl
  obtain ⟨st, hst, htrace, hdata, hchecks⟩ := file_checked 64 (by decide) (2 ^ 44) [] hwritten rfl
  obtain ⟨result, hruns, hpassed⟩ := hchecks .ample (fun _ => 7) 2 2 (by decide)
  exact ⟨st, hst, htrace, result, hruns 2 (by decide),
    hpassed.mpr ⟨rfl, rfl, hdata.trans (by decide)⟩⟩

end Streamlike
