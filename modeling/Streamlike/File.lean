import Mathlib.Data.Int.Basic
import Streamlike.Buffer
import Streamlike.HttpRead
import Streamlike.Stored

/-!
# The file stream

`file.c` over a `FILE` of the C library, open for reading and writing. The
library keeps what is written in a buffer of its own and may carry out any
part of it at any time; reading after writing without a flush or a seek
between them, or writing after reading before the end of file, is
undefined. Input and output errors are left out: nothing raises the error
flag. A seek is refused where its target is negative, does not fit a `long`
or is beyond what the file system accepts.

The stream is a content that is written to (`file_content`): what the
library has buffered cannot be seen through it, except in its length,
which is that of the file itself.
-/

namespace Streamlike

/-! ## The C library -/

/-- The last operation, for the rule on reading and writing in turn. -/
inductive LastOp where
  | none
  | input
  | output
deriving Repr, DecidableEq

/-- A `FILE`: the file itself, the bytes written and not carried out, which
end at the position, and the two flags. -/
structure CFile where
  disk : Bytes
  pending : Bytes
  pos : Nat
  eof : Bool
  err : Bool
  last : LastOp

/-- `fopen(path, "r+b")` on a file with these bytes. -/
def CFile.opened (disk : Bytes) : CFile := ⟨disk, [], 0, false, false, .none⟩

/-- What is read at the positions. -/
def CFile.data (file : CFile) : Bytes :=
  writeAt file.disk (file.pos - file.pending.length) file.pending

/-- The library carries out the first `k` pending bytes. -/
def CFile.transmit (file : CFile) (k : Nat) : CFile :=
  { file with
    disk := writeAt file.disk (file.pos - file.pending.length) (file.pending.take k)
    pending := file.pending.drop k }

/-- Everything is carried out. -/
def CFile.flushed (file : CFile) : CFile := { file with disk := file.data, pending := [] }

/-- `fread(.., 1, size, file)`: the bytes. -/
def fread (file : CFile) (size : Nat) : Option (Bytes × CFile) :=
  if size = 0 then some ([], file)
  else if file.last = .output then none
  else
    let bytes := if file.eof then [] else (file.data.drop file.pos).take size
    some (bytes, { file with
      pos := file.pos + bytes.length
      eof := file.eof || decide (bytes.length < size)
      last := .input })

/-- `fwrite(bytes, 1, .., file)`. -/
def fwrite (file : CFile) (bytes : Bytes) : Option (Nat × CFile) :=
  if bytes.isEmpty then some (0, file)
  else if file.last = .input ∧ file.eof = false then none
  else
    some (bytes.length, { file with
      pending := file.pending ++ bytes
      pos := file.pos + bytes.length
      last := .output })

/-- `fflush`. -/
def fflush (file : CFile) : Int × CFile :=
  if file.last = .input then (0, file) else (0, { file.flushed with last := .none })

/-- The largest position that `fseek` goes to: it fits a `long` of `w` bits,
and the file system accepts positions up to `limit`. -/
def seekLimit (w limit : Nat) : Nat := min limit (2 ^ (w - 1) - 1)

/-- The end of `fseek`: to a target that is not negative and not beyond
`most`. -/
def CFile.seekTo (file : CFile) (most : Nat) : Option Int → Int × CFile
  | some target =>
      if 0 ≤ target ∧ target ≤ most then
        (0, { file.flushed with pos := target.toNat, eof := false, last := .none })
      else (-1, file)
  | none => (-1, file)

/-- `fseek`, with an `offset` that is a `long` of `w` bits. -/
def fseek (w limit : Nat) (file : CFile) (offset whence : Int) : Int × CFile :=
  file.seekTo (seekLimit w limit)
    (if whence = 0 then some offset
    else if whence = 1 then some (file.pos + offset)
    else if whence = 2 then some (file.data.length + offset)
    else none)

/-- The conversion to a `long` of `w` bits. -/
def toLong (w : Nat) (offset : Int) : Int := offset.bmod (2 ^ w)

/-! ## The callbacks -/

/-- `SL_SEEK_CUR` and `SL_SEEK_END`. -/
def slSeekCur : Int := 1

def slSeekEnd : Int := 2

def slFreadCb (file : CFile) (buffer : ByteMem UInt8) (size : Nat) :
    Option (Nat × ByteMem UInt8 × CFile) :=
  (fread file size).map fun (bytes, file) => (bytes.length, buffer.write 0 bytes, file)

def slFwriteCb (file : CFile) (buffer : ByteMem UInt8) (size : Nat) : Option (Nat × CFile) :=
  fwrite file (buffer.read 0 size)

def slFflushCb (file : CFile) : Int × CFile := fflush file

/-- `sl_fseek_cb`. The offset is an `off_t`, that of `fseek` a `long`. -/
def slFseekCb (w limit : Nat) (file : CFile) (offset whence : Int) : Int × CFile :=
  if whence = slSeekSet then fseek w limit file (toLong w offset) 0
  else if whence = slSeekCur then fseek w limit file (toLong w offset) 1
  else if whence = slSeekEnd then fseek w limit file (toLong w offset) 2
  else fseek w limit file (toLong w offset) whence

def slFtellCb (file : CFile) : Int := file.pos

def slFeofCb (file : CFile) : Int := if file.eof then 1 else 0

def slFerrorCb (file : CFile) : Int := if file.err then 1 else 0

/-- `sl_flength_cb`. `fileno` and `fstat` succeed or not with `fd` and
`stat`. -/
def slFlengthCb (fd stat : Bool) (file : CFile) : Int :=
  if !fd then -1 else if !stat then -2 else file.disk.length

/-! ## Runs -/

/-- The origin of a `whence`. -/
def originOf (whence : Int) : Option Origin :=
  if whence = slSeekSet then some .start
  else if whence = slSeekCur then some .current
  else if whence = slSeekEnd then some .stop
  else none

/-- The calls of a user, and the library carrying out a part of its buffer
on its own. -/
inductive FileCall where
  | read (buffer : ByteMem UInt8) (size : Nat)
  | write (buffer : ByteMem UInt8) (size : Nat)
  | flush
  | seek (offset whence : Int)
  | transmit (k : Nat)

structure FileSys where
  file : CFile
  trace : List (StoredEvent UInt8)

def fileStep (w limit : Nat) (a : FileCall) (x : FileSys) : Option FileSys :=
  match a with
  | .read buffer size =>
      (slFreadCb x.file buffer size).map fun (n, buffer, file) =>
        ⟨file, x.trace ++ [.read size (buffer.read 0 n) (slFtellCb file)]⟩
  | .write buffer size =>
      (slFwriteCb x.file buffer size).map fun (n, file) =>
        ⟨file, x.trace ++ [.write (buffer.read 0 n) (slFtellCb file)]⟩
  | .flush => some { x with file := (slFflushCb x.file).2 }
  | .seek offset whence =>
      let (code, file) := slFseekCb w limit x.file offset whence
      some ⟨file, x.trace ++ [.seek offset (originOf whence) code (slFtellCb file)]⟩
  | .transmit k => some { x with file := x.file.transmit k }

/-- The stream over a file with content `d`, where a `long` has `w` bits and
the file system accepts positions up to `limit`. -/
def fileStream (w limit : Nat) (d : Bytes) : Lts FileSys FileCall where
  init x := x = ⟨.opened d, []⟩
  step := fileStep w limit

/-- The offset of a seek fits a `long`. -/
def LongOk (w : Nat) (_ : FileSys) : FileCall → Prop
  | .seek offset _ => -2 ^ (w - 1) ≤ offset ∧ offset < 2 ^ (w - 1)
  | _ => True

/-! ## The operations -/

structure CFile.Ok (file : CFile) : Prop where
  room : file.pending.length ≤ file.pos
  clean : file.last ≠ .output → file.pending = []
  eof : file.eof = true → file.data.length ≤ file.pos
  err : file.err = false

section Operations

variable {file file' : CFile}

theorem CFile.data_clean (h : file.pending = []) : file.data = file.disk := by
  rw [CFile.data, h, writeAt_nil]

theorem CFile.data_flushed (file : CFile) : file.flushed.data = file.data :=
  CFile.data_clean rfl

/-- What the library carries out on its own cannot be seen. -/
theorem CFile.data_transmit (h : file.Ok) (k : Nat) : (file.transmit k).data = file.data := by
  have hroom := h.room
  have hoff : file.pos - (file.pending.drop k).length
      = file.pos - file.pending.length + (file.pending.take k).length := by
    rw [List.length_drop, List.length_take]
    omega
  show writeAt (writeAt file.disk _ (file.pending.take k))
    (file.pos - (file.pending.drop k).length) (file.pending.drop k) = file.data
  rw [hoff, writeAt_append, List.take_append_drop]
  rfl

theorem CFile.Ok.transmit (h : file.Ok) (k : Nat) : (file.transmit k).Ok where
  room := by
    show (file.pending.drop k).length ≤ file.pos
    rw [List.length_drop]
    exact (Nat.sub_le _ _).trans h.room
  clean := fun hlast => by
    show file.pending.drop k = []
    rw [h.clean hlast, List.drop_nil]
  eof := fun heof => by
    rw [CFile.data_transmit h]
    exact h.eof heof
  err := h.err

theorem CFile.Ok.flushed (h : file.Ok) : { file.flushed with last := LastOp.none }.Ok where
  room := Nat.zero_le _
  clean := fun _ => rfl
  eof := fun heof => h.eof heof
  err := h.err

/-- A read gives what is there. -/
structure Fread (file : CFile) (size : Nat) (bytes : Bytes) (file' : CFile) : Prop where
  gives : bytes = (file.data.drop file.pos).take size
  ok : file'.Ok
  data : file'.data = file.data
  pos : file'.pos = file.pos + bytes.length
  eof : file'.eof = true ↔ file.eof = true ∨ bytes.length < size
  last : file.last ≠ .output → file'.last ≠ .output

theorem fread_reads (h : file.Ok) {size : Nat} {bytes : Bytes}
    (hread : fread file size = some (bytes, file')) : Fread file size bytes file' := by
  unfold fread at hread
  split at hread
  · next hzero =>
    obtain ⟨rfl, rfl⟩ := Prod.mk.inj (Option.some.inj hread)
    subst hzero
    exact ⟨List.take_zero.symm, h, rfl, rfl, (or_iff_left (Nat.lt_irrefl 0)).symm, id⟩
  · split at hread
    · cases hread
    · next hlast =>
      obtain ⟨hbytes, rfl⟩ := Prod.mk.inj (Option.some.inj hread)
      have hclean := h.clean hlast
      have hrest : (if file.eof then [] else (file.data.drop file.pos).take size)
          = (file.data.drop file.pos).take size := by
        split
        · next heof => rw [List.drop_of_length_le (h.eof heof), List.take_nil]
        · rfl
      rw [hrest] at hbytes ⊢
      have hdata : ∀ pos eof last, CFile.data ⟨file.disk, file.pending, pos, eof, file.err, last⟩
          = file.data := fun _ _ _ => by rw [CFile.data_clean hclean]; exact CFile.data_clean hclean
      subst hbytes
      refine ⟨rfl, ⟨?_, fun _ => hclean, fun heof => ?_, h.err⟩, hdata _ _ _, rfl, ?_, nofun⟩
      · show file.pending.length ≤ _
        rw [hclean]
        exact Nat.zero_le _
      · rw [hdata]
        show _ ≤ file.pos + ((file.data.drop file.pos).take size).length
        rcases Bool.or_eq_true _ _ |>.mp heof with hold | hshort
        · exact (h.eof hold).trans (Nat.le_add_right _ _)
        · have hshort := of_decide_eq_true hshort
          rw [List.length_take, List.length_drop] at hshort ⊢
          omega
      · rw [Bool.or_eq_true, decide_eq_true_eq]

/-- A write puts the bytes at the position. -/
structure Fwrite (file : CFile) (bytes : Bytes) (n : Nat) (file' : CFile) : Prop where
  count : n = bytes.length
  ok : file'.Ok
  data : file'.data = writeAt file.data file.pos bytes
  pos : file'.pos = file.pos + bytes.length

theorem fwrite_writes (h : file.Ok) {bytes : Bytes} {n : Nat}
    (hwrite : fwrite file bytes = some (n, file')) : Fwrite file bytes n file' := by
  have hroom := h.room
  unfold fwrite at hwrite
  split at hwrite
  · next hnil =>
    obtain ⟨rfl, rfl⟩ := Prod.mk.inj (Option.some.inj hwrite)
    obtain rfl := List.isEmpty_iff.mp hnil
    exact ⟨rfl, h, (writeAt_nil _ _).symm, rfl⟩
  · next hne =>
    split at hwrite
    · cases hwrite
    · obtain ⟨rfl, rfl⟩ := Prod.mk.inj (Option.some.inj hwrite)
      have hne : bytes ≠ [] := fun hnil => hne (List.isEmpty_iff.mpr hnil)
      have hdata : CFile.data { file with
          pending := file.pending ++ bytes, pos := file.pos + bytes.length, last := .output }
          = writeAt file.data file.pos bytes := by
        show writeAt file.disk (file.pos + bytes.length - (file.pending ++ bytes).length)
          (file.pending ++ bytes) = _
        rw [List.length_append, Nat.add_sub_add_right, ← writeAt_append]
        show writeAt file.data (file.pos - file.pending.length + file.pending.length) bytes = _
        rw [Nat.sub_add_cancel hroom]
      refine ⟨rfl, ⟨?_, fun hlast => absurd rfl hlast, fun heof => ?_, h.err⟩, hdata, rfl⟩
      · show (file.pending ++ bytes).length ≤ file.pos + bytes.length
        rw [List.length_append]
        omega
      · rw [hdata, length_writeAt _ _ hne]
        have hend := h.eof heof
        show max _ _ ≤ file.pos + bytes.length
        omega

theorem fflush_flushes (h : file.Ok) :
    (fflush file).2.Ok ∧ (fflush file).2.data = file.data ∧ (fflush file).2.pos = file.pos
      ∧ (fflush file).2.pending = [] := by
  unfold fflush
  split
  · next hlast => exact ⟨h, rfl, rfl, h.clean (by rw [hlast]; nofun)⟩
  · exact ⟨h.flushed, file.data_flushed, rfl, rfl⟩

/-- A seek goes to its target, or is refused. -/
theorem seekTo_cases (file : CFile) (most : Nat) (goal : Option Int) :
    (∃ target, goal = some target ∧ (0 ≤ target ∧ target ≤ most) ∧ file.seekTo most goal
        = (0, { file.flushed with pos := target.toNat, eof := false, last := .none }))
      ∨ (∀ target, goal = some target → ¬ (0 ≤ target ∧ target ≤ most))
        ∧ file.seekTo most goal = (-1, file) := by
  cases goal with
  | none => exact .inr ⟨nofun, rfl⟩
  | some target =>
      by_cases hpos : 0 ≤ target ∧ target ≤ most
      · exact .inl ⟨target, rfl, hpos, if_pos hpos⟩
      · exact .inr ⟨fun _ h => Option.some.inj h ▸ hpos, if_neg hpos⟩

theorem slFseekCb_eq (w limit : Nat) (file : CFile) (offset whence : Int) :
    slFseekCb w limit file offset whence = file.seekTo (seekLimit w limit)
      ((originOf whence).map (Origin.target file.pos file.data.length (toLong w offset))) := by
  unfold slFseekCb originOf
  split
  · rfl
  split
  · rfl
  split
  · rfl
  next hset hcur hend =>
    unfold fseek
    simp only [show ¬ whence = 0 from hset, show ¬ whence = 1 from hcur,
      show ¬ whence = 2 from hend, if_false]
    rfl

theorem toLong_eq {w : Nat} {offset : Int} (hw : 0 < w) (hlow : -2 ^ (w - 1) ≤ offset)
    (hhigh : offset < 2 ^ (w - 1)) : toLong w offset = offset := by
  obtain ⟨v, rfl⟩ := Nat.exists_eq_succ_of_ne_zero hw.ne'
  rw [Nat.succ_sub_one] at hlow hhigh
  have hpow : (2 ^ (v + 1) : Nat) = 2 * 2 ^ v := by rw [Nat.pow_succ, Nat.mul_comm]
  have hcast : ((2 ^ v : Nat) : Int) = 2 ^ v := by simp
  refine Int.bmod_eq_of_le ?_ ?_ <;> rw [Nat.succ_eq_add_one, hpow] <;> omega

/-- The file at a position, not written to since the last seek. -/
structure FileAt (d : Bytes) (file : CFile) (pos : Nat) : Prop where
  ok : file.Ok
  data : file.data = d
  pos : file.pos = pos
  last : file.last ≠ .output

theorem FileAt.opened (d : Bytes) : FileAt d (.opened d) 0 where
  ok := ⟨Nat.zero_le _, fun _ => rfl, nofun, rfl⟩
  data := rfl
  pos := rfl
  last := nofun

theorem FileAt.sought (h : file.Ok) (pos : Nat) :
    FileAt file.data { file.flushed with pos, eof := false, last := .none } pos where
  ok := ⟨Nat.zero_le _, fun _ => rfl, nofun, h.err⟩
  data := file.data_flushed
  pos := rfl
  last := nofun

/-- There is always a read. -/
theorem FileAt.fread {d : Bytes} {pos : Nat} (h : FileAt d file pos) (size : Nat) :
    ∃ file', Streamlike.fread file size = some ((d.drop pos).take size, file')
      ∧ FileAt d file' (pos + ((d.drop pos).take size).length)
      ∧ (file'.eof = true ↔ file.eof = true ∨ ((d.drop pos).take size).length < size) := by
  have hsome : ∃ bytes file', Streamlike.fread file size = some (bytes, file') := by
    unfold Streamlike.fread
    split
    · exact ⟨_, _, rfl⟩
    · rw [if_neg h.last]
      exact ⟨_, _, rfl⟩
  obtain ⟨bytes, file', hread⟩ := hsome
  have hreads := fread_reads h.ok hread
  have hgives := hreads.gives
  rw [h.data, h.pos] at hgives
  subst hgives
  refine ⟨file', hread, ⟨hreads.ok, hreads.data.trans h.data, ?_, hreads.last h.last⟩, hreads.eof⟩
  rw [hreads.pos, h.pos]

end Operations

/-! ## The stream is the content -/

/-- The stream against a content that is written to. -/
structure Files (x : FileSys) (st : Stored UInt8) : Prop where
  ok : x.file.Ok
  data : x.file.data = st.data
  pos : x.file.pos = st.pos
  trace : x.trace = st.trace

section Runs

variable {w limit : Nat} {d : Bytes} {x x' : FileSys} {st : Stored UInt8}

theorem Files.start (d : Bytes) : Files ⟨.opened d, []⟩ ⟨d, 0, []⟩ where
  ok := ⟨Nat.zero_le _, fun _ => rfl, nofun, rfl⟩
  data := rfl
  pos := rfl
  trace := rfl

theorem Files.read (h : Files x st) {buffer : ByteMem UInt8} {size : Nat}
    (hs : fileStep w limit (.read buffer size) x = some x') :
    Files x' (storedStep (seekLimit w limit) (.read size) st) := by
  obtain ⟨⟨n, out, file⟩, hcall, rfl⟩ := Option.map_eq_some_iff.mp hs
  obtain ⟨⟨bytes, file'⟩, hread, heq⟩ := Option.map_eq_some_iff.mp hcall
  obtain ⟨rfl, hrest⟩ := Prod.mk.inj heq
  obtain ⟨rfl, rfl⟩ := Prod.mk.inj hrest
  have hreads := fread_reads h.ok hread
  have hgives := hreads.gives
  rw [h.data, h.pos] at hgives
  subst hgives
  refine ⟨hreads.ok, hreads.data.trans h.data, ?_, ?_⟩
  · rw [hreads.pos, h.pos]
    rfl
  · show x.trace ++ [.read size _ (slFtellCb file')] = st.trace ++ [.read size _ _]
    rw [h.trace, ByteMem.read_write_self, slFtellCb, hreads.pos, h.pos]

theorem Files.write (h : Files x st) {buffer : ByteMem UInt8} {size : Nat}
    (hs : fileStep w limit (.write buffer size) x = some x') :
    Files x' (storedStep (seekLimit w limit) (.write (buffer.read 0 size)) st) := by
  obtain ⟨⟨n, file⟩, hwrite, rfl⟩ := Option.map_eq_some_iff.mp hs
  have hwrites := fwrite_writes h.ok hwrite
  have hdata := hwrites.data
  have hpos := hwrites.pos
  rw [h.data, h.pos] at hdata
  rw [h.pos] at hpos
  obtain rfl : n = size := hwrites.count.trans (ByteMem.length_read _ _ _)
  refine ⟨hwrites.ok, hdata, hpos, ?_⟩
  show x.trace ++ [.write (buffer.read 0 n) (slFtellCb file)] = st.trace ++ [.write _ _]
  rw [h.trace, slFtellCb, hpos]

theorem Files.seek (h : Files x st) {offset whence : Int} (hlong : toLong w offset = offset)
    (hs : fileStep w limit (.seek offset whence) x = some x') :
    Files x' (storedStep (seekLimit w limit) (.seek offset (originOf whence)) st) := by
  rw [fileStep, slFseekCb_eq, hlong, h.data, h.pos] at hs
  rcases seekTo_cases x.file (seekLimit w limit)
    ((originOf whence).map (Origin.target st.pos st.data.length offset))
    with ⟨target, horigin, hpos, heq⟩ | ⟨hneg, heq⟩
  · rw [heq] at hs
    obtain rfl := Option.some.inj hs
    rw [storedStep_seek horigin hpos]
    refine ⟨⟨Nat.zero_le _, fun _ => rfl, nofun, h.ok.err⟩, x.file.data_flushed.trans h.data, rfl,
      ?_⟩
    show x.trace ++ [.seek _ _ _ ((target.toNat : Nat) : Int)] = st.trace ++ [_]
    rw [h.trace, Int.toNat_of_nonneg hpos.1]
  · rw [heq] at hs
    obtain rfl := Option.some.inj hs
    rw [storedStep_refused hneg]
    refine ⟨h.ok, h.data, h.pos, ?_⟩
    show x.trace ++ [_] = st.trace ++ [_]
    rw [h.trace, slFtellCb, h.pos]

theorem Files.flush (h : Files x st) : Files ⟨(slFflushCb x.file).2, x.trace⟩ st := by
  obtain ⟨hok, hdata, hpos, -⟩ := fflush_flushes h.ok
  exact ⟨hok, hdata.trans h.data, hpos.trans h.pos, h.trace⟩

theorem files_of_reach (hw : 0 < w) (h : (fileStream w limit d).Reach (LongOk w) x) :
    ∃ st, (stored (seekLimit w limit) d).Reach Lts.Any st ∧ Files x st := by
  refine h.simulate (R := Files) (fun x hx => ?_) (fun x a x' st _ hi ha hs => ?_)
  · obtain rfl := hx
    exact ⟨_, rfl, .start d⟩
  · cases a with
    | read buffer size => exact ⟨_, .single trivial rfl, hi.read hs⟩
    | write buffer size => exact ⟨_, .single trivial rfl, hi.write hs⟩
    | flush =>
        obtain rfl := Option.some.inj hs
        exact ⟨st, .refl, hi.flush⟩
    | seek offset whence =>
        exact ⟨_, .single trivial rfl, hi.seek (toLong_eq hw ha.1 ha.2) hs⟩
    | transmit k =>
        obtain rfl := Option.some.inj hs
        exact ⟨st, .refl, hi.ok.transmit k, (CFile.data_transmit hi.ok k).trans hi.data, hi.pos,
          hi.trace⟩

end Runs

/-- **The file stream is a content that is written to.** In every run without
input or output errors in which the offsets of the seeks fit a `long`, and
whenever the library carries out a part of what it has buffered: the calls
return what they return on that content, `tell` is its position, and the
end of file is reported only at or behind its end. A seek is refused just
where its target is negative, does not fit a `long` or is not accepted by
the file system. The length is right just as long as nothing that is
buffered reaches beyond the end of the file itself. -/
theorem file_content (w : Nat) (hw : 0 < w) (limit : Nat) (d : Bytes) {x : FileSys}
    (h : (fileStream w limit d).Reach (LongOk w) x) :
    ∃ st, (stored (seekLimit w limit) d).Reach Lts.Any st ∧ st.trace = x.trace
      ∧ slFtellCb x.file = st.pos
      ∧ (slFeofCb x.file ≠ 0 → st.data.length ≤ st.pos)
      ∧ (slFlengthCb true true x.file = st.data.length
        ↔ x.file.pending = [] ∨ x.file.pos ≤ x.file.disk.length) := by
  obtain ⟨st, hst, hfiles⟩ := files_of_reach hw h
  have hroom := hfiles.ok.room
  refine ⟨st, hst, hfiles.trace.symm, congrArg Nat.cast hfiles.pos, fun heof => ?_, ?_⟩
  · rw [← hfiles.data, ← hfiles.pos]
    refine hfiles.ok.eof (Bool.of_not_eq_false fun hno => heof ?_)
    rw [slFeofCb, hno]
    rfl
  · rw [← hfiles.data]
    show (x.file.disk.length : Int) = x.file.data.length ↔ _
    by_cases hnil : x.file.pending = []
    · rw [CFile.data_clean hnil]
      exact iff_of_true rfl (.inl hnil)
    · rw [CFile.data, length_writeAt _ _ hnil, Nat.sub_add_cancel hroom]
      simp only [hnil, false_or]
      omega

/-- Written bytes, sought and read before they are carried out, after a seek
to a position that does not fit a `long`. -/
theorem file_content_run :
    ∃ st : Stored UInt8, (stored (2 ^ 44) [1, 2, 3]).Reach Lts.Any st
      ∧ st.trace = [.write [7, 7] 2, .seek (2 ^ 63 - 1) (some .current) (-1) 2,
          .seek (-1) (some .current) 0 1, .read 2 [7, 3] 3]
      ∧ st.pos = 3 := by
  let acts : List FileCall :=
    [.write (fun _ => 7) 2, .transmit 1, .seek (2 ^ 63 - 1) slSeekCur, .seek (-1) slSeekCur,
      .read (fun _ => 0) 2]
  have hrun : ((fileStream 64 (2 ^ 44) [1, 2, 3]).run acts ⟨.opened [1, 2, 3], []⟩).map
      (fun x => (x.trace, slFtellCb x.file))
      = some ([.write [7, 7] 2, .seek (2 ^ 63 - 1) (some .current) (-1) 2,
          .seek (-1) (some .current) 0 1, .read 2 [7, 3] 3], 3) := by
    decide
  obtain ⟨x, hx, heq⟩ := Option.map_eq_some_iff.mp hrun
  obtain ⟨htrace, htell⟩ := Prod.mk.inj heq
  have hok : ∀ a ∈ acts, ∀ x, LongOk 64 x a := by
    intro a ha x
    simp only [acts, List.mem_cons, List.not_mem_nil, or_false] at ha
    rcases ha with rfl | rfl | rfl | rfl | rfl
    · trivial
    · trivial
    · exact ⟨by decide, by decide⟩
    · exact ⟨by decide, by decide⟩
    · trivial
  obtain ⟨st, hst, hsame, hpos, -⟩ :=
    file_content 64 (by decide) (2 ^ 44) [1, 2, 3] (.run hok (.init rfl) hx)
  exact ⟨st, hst, hsame.trans htrace, Int.ofNat.inj (hpos.symm.trans htell)⟩

/-! ## Reading back -/

/-- A write of other bytes than those from `lo` to `hi`. -/
def Spares (lo hi : Nat) (x : FileSys) : FileCall → Prop
  | .write _ size => x.file.pos + size ≤ lo ∨ hi ≤ x.file.pos
  | _ => True

section ReadBack

variable {w limit : Nat} {d : Bytes} {x x₁ x₂ : FileSys}

/-- What is read at the positions changes by a write only. -/
theorem fileStep_data {a : FileCall} (h : x.file.Ok) (hs : fileStep w limit a x = some x₁) :
    x₁.file.Ok ∧ (x₁.file.data = x.file.data ∨ ∃ buffer size, a = .write buffer size
      ∧ x₁.file.data = writeAt x.file.data x.file.pos (buffer.read 0 size)) := by
  cases a with
  | read buffer size =>
      obtain ⟨⟨n, out, file⟩, hcall, rfl⟩ := Option.map_eq_some_iff.mp hs
      obtain ⟨⟨bytes, file'⟩, hread, heq⟩ := Option.map_eq_some_iff.mp hcall
      obtain ⟨-, rfl⟩ := Prod.mk.inj (Prod.mk.inj heq).2
      have hreads := fread_reads h hread
      exact ⟨hreads.ok, .inl hreads.data⟩
  | write buffer size =>
      obtain ⟨⟨n, file⟩, hwrite, rfl⟩ := Option.map_eq_some_iff.mp hs
      have hwrites := fwrite_writes h hwrite
      exact ⟨hwrites.ok, .inr ⟨buffer, size, rfl, hwrites.data⟩⟩
  | flush =>
      obtain rfl := Option.some.inj hs
      obtain ⟨hok, hdata, -⟩ := fflush_flushes h
      exact ⟨hok, .inl hdata⟩
  | seek offset whence =>
      rw [fileStep, slFseekCb_eq] at hs
      rcases seekTo_cases x.file (seekLimit w limit) ((originOf whence).map
        (Origin.target x.file.pos x.file.data.length (toLong w offset)))
        with ⟨target, -, -, heq⟩ | ⟨-, heq⟩
      · rw [heq] at hs
        obtain rfl := Option.some.inj hs
        exact ⟨⟨Nat.zero_le _, fun _ => rfl, nofun, h.err⟩, .inl x.file.data_flushed⟩
      · rw [heq] at hs
        obtain rfl := Option.some.inj hs
        exact ⟨h, .inl rfl⟩
  | transmit k =>
      obtain rfl := Option.some.inj hs
      exact ⟨h.transmit k, .inl (CFile.data_transmit h k)⟩

theorem fileOk_of_reach (h : (fileStream w limit d).Reach Lts.Any x) : x.file.Ok := by
  refine h.invariant (I := fun x => x.file.Ok) (fun x hx => ?_)
    fun _ _ _ _ hi _ hs => (fileStep_data hi hs).1
  obtain rfl := hx
  exact (Files.start d).ok

/-- Steps that spare bytes keep them. -/
theorem spared_kept {lo len : Nat} (hok : x₁.file.Ok) (hin : lo + len ≤ x₁.file.data.length)
    (h : (fileStream w limit d).Steps (Spares lo (lo + len)) x₁ x₂) :
    x₂.file.Ok ∧ lo + len ≤ x₂.file.data.length
      ∧ (x₂.file.data.drop lo).take len = (x₁.file.data.drop lo).take len := by
  induction h with
  | refl => exact ⟨hok, hin, rfl⟩
  | tail _ hspares hs ih =>
      obtain ⟨hok, hin, hkept⟩ := ih
      obtain ⟨hok', hdata | ⟨buffer, size, rfl, hdata⟩⟩ := fileStep_data hok hs
      · rw [hdata]
        exact ⟨hok', hin, hkept⟩
      · rw [hdata]
        refine ⟨hok', hin.trans (length_le_writeAt _ _ _), ?_⟩
        rw [take_drop_elsewhere hin (by rw [ByteMem.length_read]; exact hspares.symm), hkept]

end ReadBack

/-- **What is written is read back.** After a write, and any calls that do
not write over the part that is read, with what the library carries out
between them: a read that starts in the written bytes and does not leave
them returns in full, with what was written. -/
theorem file_reads_back (w limit : Nat) (d : Bytes) {x x₁ x₂ : FileSys}
    (h : (fileStream w limit d).Reach Lts.Any x) (buffer : ByteMem UInt8) (size : Nat)
    (hwrite : fileStep w limit (.write buffer size) x = some x₁) (skip len : Nat)
    (hlen : skip + len ≤ size)
    (hspares : (fileStream w limit d).Steps
      (Spares (x.file.pos + skip) (x.file.pos + skip + len)) x₁ x₂)
    (htell : slFtellCb x₂.file = slFtellCb x.file + skip) (out : ByteMem UInt8)
    {out' : ByteMem UInt8} {n : Nat} {file : CFile}
    (hread : slFreadCb x₂.file out len = some (n, out', file)) :
    n = len ∧ out' = out.write 0 (buffer.read skip len) := by
  have hok := fileOk_of_reach h
  obtain ⟨⟨m, file₁⟩, hcall, rfl⟩ := Option.map_eq_some_iff.mp hwrite
  have hwrites := fwrite_writes hok hcall
  obtain ⟨⟨bytes, file₂⟩, hcall₂, heq⟩ := Option.map_eq_some_iff.mp hread
  obtain ⟨rfl, hrest⟩ := Prod.mk.inj heq
  obtain ⟨rfl, rfl⟩ := Prod.mk.inj hrest
  rcases Nat.eq_zero_or_pos len with rfl | hpos
  · obtain ⟨rfl, -⟩ := Prod.mk.inj (Option.some.inj hcall₂)
    exact ⟨rfl, rfl⟩
  have hsize : (buffer.read 0 size).length = size := ByteMem.length_read _ _ _
  have hne : buffer.read 0 size ≠ [] := List.ne_nil_of_length_pos (by omega)
  have hin : x.file.pos + skip + len ≤ file₁.data.length := by
    rw [hwrites.data, length_writeAt _ _ hne, hsize]
    omega
  obtain ⟨hok₂, -, hkept⟩ := spared_kept hwrites.ok hin hspares
  have hat : x₂.file.pos = x.file.pos + skip := Int.ofNat.inj (htell.trans rfl)
  have hbytes : bytes = buffer.read skip len := by
    rw [(fread_reads hok₂ hcall₂).gives, hat, hkept, hwrites.data,
      take_drop_writeAt _ _ (by rwa [hsize]), ByteMem.drop_read _ _ (by omega), Nat.zero_add,
      ByteMem.take_read _ _ (by omega)]
  rw [hbytes]
  exact ⟨ByteMem.length_read _ _ _, rfl⟩

/-- Three bytes written at the end and one behind them, and the last two of
the three. -/
theorem file_reads_back_run :
    ∃ x₂ n out file, (fileStream 64 (2 ^ 44) [1, 2, 3]).run
        [.seek 0 slSeekEnd, .write (fun _ => 7) 3, .write (fun _ => 8) 1, .transmit 2,
          .seek (-3) slSeekCur] ⟨.opened [1, 2, 3], []⟩ = some x₂
      ∧ slFreadCb x₂.file (fun _ => 0) 2 = some (n, out, file)
      ∧ n = 2 ∧ out = ByteMem.write (fun _ => 0) 0 [7, 7] := by
  let M := fileStream 64 (2 ^ 44) [1, 2, 3]
  let e₀ : List (StoredEvent UInt8) := [.seek 0 (some .stop) 0 3]
  let x : FileSys := ⟨⟨[1, 2, 3], [], 3, false, false, .none⟩, e₀⟩
  let x₁ : FileSys := ⟨⟨[1, 2, 3], [7, 7, 7], 6, false, false, .output⟩, e₀ ++ [.write [7, 7, 7] 6]⟩
  have hx : M.Reach Lts.Any x := .step (a := .seek 0 slSeekEnd) (.init rfl) trivial rfl
  have hwrite : fileStep 64 (2 ^ 44) (.write (fun _ => 7) 3) x = some x₁ := rfl
  have hspares : M.Steps (Spares (x.file.pos + 1) (x.file.pos + 1 + 2)) x₁ _ :=
    .tail (a := .seek (-3) slSeekCur) (.tail (a := .transmit 2)
      (.single (a := .write (fun _ => 8) 1) (.inr (by decide)) rfl) trivial rfl) trivial rfl
  obtain ⟨hn, hout⟩ := file_reads_back 64 (2 ^ 44) [1, 2, 3] hx (fun _ => 7) 3 hwrite 1 2
    (by decide) hspares rfl (fun _ => 0) rfl
  exact ⟨_, _, _, _, rfl, rfl, hn, hout⟩

end Streamlike
