import Mathlib.Algebra.GroupWithZero.Nat
import Streamlike.TestResult

/-!
# The failure string of a chain of results

`sl_test_failure_str` sums the lengths of the messages in an `int`,
allocates that many bytes and copies the messages into them. It reads and
writes inside its bounds, and joins the messages, exactly when every
message fits its block and the sum is an `int` (`true_lengths_iff`).
-/

namespace Streamlike

open CString CFormat SizeT

/-- The messages, joined. -/
def joined (rs : SlTestPtr) : Bytes := (lit "\n\t").intercalate (rs.map SlTestResult.stored)

/-- The messages, each with the separator behind it. -/
def ended (rs : SlTestPtr) : Bytes := rs.flatMap fun r => r.stored ++ lit "\n\t"

/-- A read of stored message bytes, a write inside the allocated string. -/
def Touch.Inside : Touch → Prop
  | .read r len => len ≤ r.stored.length
  | .write size off len => len = 0 ∨ 0 ≤ off ∧ off + len ≤ size

/-- The string is made inside the bounds, and has every message of the
chain in order. -/
structure FailureStrOk (malloc : Malloc) (rs : SlTestPtr) : Prop where
  safe : (slTestFailureStr malloc rs).Safe Touch.Inside
  joins : ∀ result_str, (slTestFailureStr malloc rs).val = some result_str →
    result_str.read 0 ((joined rs).length + 1) = joined rs ++ [0]

/-- Results, each created with the next as `inner`, and the calls. -/
inductive Nested : List TestCall → SlTestPtr → Prop
  | null : Nested [] []
  | create {cs : List TestCall} {rs : SlTestPtr} {c : TestCall} {r : SlTestResult} :
      Nested cs rs → c.create rs = r :: rs → Nested (c :: cs) (r :: rs)

/-- The bytes that the messages need with their separators. -/
def totalLength (cs : List TestCall) : Nat := (cs.map fun c => c.message.length + 2).sum

/-- No string is asked for, or `malloc` refuses it. -/
def NoString (malloc : Malloc) : List TestCall → Prop
  | [] => True
  | c :: cs => c.status = statusOk
      ∨ malloc.block (toSizeT (toInt (totalLength (c :: cs)))) = none

theorem ended_eq {rs : SlTestPtr} (hne : rs ≠ []) : ended rs = joined rs ++ lit "\n\t" := by
  induction rs with
  | nil => exact absurd rfl hne
  | cons r rs ih =>
      cases rs with
      | nil => simp [ended, joined, List.intercalate]
      | cons r' rs =>
          have hrest := ih (by simp)
          simp only [ended, joined, List.intercalate, List.flatMap_cons, List.map_cons,
            List.intersperse, List.flatten_cons, List.append_assoc] at hrest ⊢
          rw [hrest]

theorem length_ended_cons (r : SlTestResult) (rs : SlTestPtr) :
    (ended (r :: rs)).length = r.stored.length + 2 + (ended rs).length := by
  have hsep : (lit "\n\t").length = 2 := by decide
  rw [ended, List.flatMap_cons, List.length_append, List.length_append, hsep]
  rfl

/-! ## The sum of the lengths -/

theorem failureLen_eq {cs : List TestCall} {rs : SlTestPtr} (h : Nested cs rs) {n : Int}
    (hn : toInt n = n) : failureLen n rs = toInt (n + totalLength cs) := by
  induction h generalizing n with
  | null => exact ((congrArg toInt (add_zero n)).trans hn).symm
  | @create cs rs c r _ hc ih =>
      have hlen := (create_eq hc).2.msgLen
      rw [failureLen, ih (toInt_toInt _), hlen]
      have hsum : (totalLength (c :: cs) : Int) = c.message.length + 2 + totalLength cs := by
        simp [totalLength]
      rw [hsum, add_comm, toInt_add,
        show (totalLength cs : Int) + (n + toSizeT (toInt c.message.length) + 2)
          = totalLength cs + n + 2 + toSizeT (toInt c.message.length) by omega,
        toInt_add_toSizeT, toInt_add]
      congr 1
      omega

/-! ## The copy -/

/-- The string and the offset after one message. -/
def copyMsg (result_str : ByteMem UInt8) (n : Int) (r : SlTestResult) : ByteMem UInt8 × Int :=
  let end_ := toInt (n + r.msgLen)
  let tab := toInt (end_ + 1)
  (((result_str.write n.toNat (r.msg.read 0 r.msgLen)).write end_.toNat (lit "\n")).write
    tab.toNat (lit "\t"), toInt (tab + 1))

/-- What copying one message touches. -/
def touchMsg (size : Nat) (n : Int) (r : SlTestResult) : List (Effect Touch) :=
  let end_ := toInt (n + r.msgLen)
  [.access (.read r r.msgLen), .access (.write size n (r.msg.read 0 r.msgLen).length),
    .access (.write size end_ 1), .access (.write size (toInt (end_ + 1)) 1)]

theorem failureCopy_cons (size : Nat) (result_str : ByteMem UInt8) (n : Int) (r : SlTestResult)
    (rs : SlTestPtr) :
    (failureCopy size result_str n (r :: rs)).val
        = (failureCopy size (copyMsg result_str n r).1 (copyMsg result_str n r).2 rs).val
      ∧ (failureCopy size result_str n (r :: rs)).trace
        = touchMsg size n r
          ++ (failureCopy size (copyMsg result_str n r).1 (copyMsg result_str n r).2 rs).trace :=
  ⟨rfl, rfl⟩

/-- Every message is read. -/
theorem failureCopy_reads {size : Nat} {r : SlTestResult} :
    ∀ {rs : SlTestPtr} {result_str : ByteMem UInt8} {n : Int}, r ∈ rs →
      .access (.read r r.msgLen) ∈ (failureCopy size result_str n rs).trace := by
  intro rs
  induction rs with
  | nil => intro _ _ hr; cases hr
  | cons r' rs ih =>
      intro result_str n hr
      rw [(failureCopy_cons size result_str n r' rs).2, List.mem_append]
      rcases List.mem_cons.mp hr with rfl | hr
      · exact .inl List.mem_cons_self
      · exact .inr (ih hr)

section Copy

variable {size : Nat} {r : SlTestResult} {n : Nat}

/-- The offsets behind a message of true length and behind its newline. -/
theorem SlTestResult.TrueLength.offsets (htrue : r.TrueLength)
    (hle : n + r.stored.length + 2 ≤ intMax) :
    toInt (n + r.msgLen) = (n + r.stored.length : Nat)
      ∧ toInt ((n + r.stored.length : Nat) + 1) = (n + r.stored.length + 1 : Nat) := by
  rw [htrue.length, toInt_of_le (by omega) (by omega), toInt_of_le (by omega) (by omega)]
  exact ⟨rfl, rfl⟩

/-- A message of true length is appended, with the separator. -/
theorem copyMsg_true (result_str : ByteMem UInt8) (htrue : r.TrueLength)
    (hle : n + r.stored.length + 2 ≤ intMax) :
    (copyMsg result_str n r).2 = (n + r.stored.length + 2 : Nat)
      ∧ (copyMsg result_str n r).1.read 0 (n + r.stored.length + 2)
        = result_str.read 0 n ++ (r.stored ++ lit "\n\t") := by
  obtain ⟨hend, htab⟩ := htrue.offsets hle
  have hlast : toInt ((n + r.stored.length + 1 : Nat) + 1 : Int)
      = (n + r.stored.length + 2 : Nat) := by
    rw [toInt_of_le (by omega) (by omega)]
    omega
  unfold copyMsg
  simp only [hend, htab, hlast, Int.toNat_natCast, htrue.read, true_and]
  have hmsg := ByteMem.read_write_append result_str n r.stored
  have hnl := ByteMem.read_write_append (result_str.write n r.stored) (n + r.stored.length)
    (lit "\n")
  have hall := ByteMem.read_write_append
    ((result_str.write n r.stored).write (n + r.stored.length) (lit "\n"))
    (n + r.stored.length + 1) (lit "\t")
  rw [show (lit "\n").length = 1 by decide, hmsg] at hnl
  rw [show (lit "\t").length = 1 by decide, hnl] at hall
  rw [show n + r.stored.length + 2 = n + r.stored.length + 1 + 1 by omega, hall]
  simp only [List.append_assoc]
  rfl

/-- As long as it ends inside the string, it is copied inside the bounds. -/
theorem touchMsg_inside (htrue : r.TrueLength) (hend : n + r.stored.length + 2 ≤ size)
    (hsize : size ≤ intMax) :
    .wrap ∉ touchMsg size n r ∧ ∀ a, .access a ∈ touchMsg size n r → a.Inside := by
  obtain ⟨hnl, htab⟩ := htrue.offsets (hend.trans hsize)
  have hlen := htrue.length
  refine ⟨by simp [touchMsg], fun a ha => ?_⟩
  simp only [touchMsg, hnl, htab, ByteMem.length_read, List.mem_cons, Effect.access.injEq,
    List.not_mem_nil, or_false] at ha
  rcases ha with rfl | rfl | rfl | rfl
  · exact hlen.le
  all_goals exact .inr (by omega)

/-- A message that does not end inside has its separator stored outside. -/
theorem touchMsg_outside (htrue : r.TrueLength) (hn : n ≤ size)
    (hend : size < n + r.stored.length + 2) (hsize : size ≤ intMax) :
    ∃ a, .access a ∈ touchMsg size n r ∧ ¬ a.Inside := by
  refine ⟨.write size (toInt (toInt (n + r.msgLen) + 1)) 1, ?_, ?_⟩
  · exact List.mem_cons_of_mem _ (List.mem_cons_of_mem _ (List.mem_cons_of_mem _
      List.mem_cons_self))
  · have hlen := htrue.length
    have hlt := htrue.lt_max
    rintro (hzero | ⟨hpos, hle⟩)
    · cases hzero
    · unfold toInt slTestMsgMaxSize intMax at *
      rw [Int.bmod_def, Int.bmod_def] at hpos hle
      omega

/-- Messages of true length that end inside the string are copied into it,
inside the bounds. -/
theorem failureCopy_fits {rs : SlTestPtr} (result_str : ByteMem UInt8)
    (htrue : ∀ r ∈ rs, r.TrueLength) (hend : n + (ended rs).length ≤ size) (hsize : size ≤ intMax) :
    (failureCopy size result_str n rs).Safe Touch.Inside
      ∧ (failureCopy size result_str n rs).val.2 = (n + (ended rs).length : Nat)
      ∧ (failureCopy size result_str n rs).val.1.read 0 (n + (ended rs).length)
        = result_str.read 0 n ++ ended rs := by
  induction rs generalizing n result_str with
  | nil =>
      refine ⟨(Returns.pure (result_str, (n : Int))).safe, rfl, ?_⟩
      exact (List.append_nil _).symm
  | cons r rs ih =>
      have hr := htrue r List.mem_cons_self
      obtain ⟨hval, htrace⟩ := failureCopy_cons size result_str n r rs
      have hlen := length_ended_cons r rs
      obtain ⟨hoff, hread⟩ := copyMsg_true (n := n) result_str hr (by omega)
      obtain ⟨hwrap, haccess⟩ := touchMsg_inside (n := n) hr (by omega) hsize
      rw [hoff] at hval htrace
      obtain ⟨⟨hwraps, haccesses⟩, hval₂, hread₂⟩ :=
        ih (n := n + r.stored.length + 2) (copyMsg result_str n r).1
          (fun r hr => htrue r (List.mem_cons_of_mem _ hr)) (by omega)
      have hsum : n + (ended (r :: rs)).length
          = n + r.stored.length + 2 + (ended rs).length := by omega
      rw [Traced.Safe, htrace, hval, hsum]
      refine ⟨⟨?_, fun a ha => ?_⟩, hval₂, ?_⟩
      · exact fun h => (List.mem_append.mp h).elim hwrap hwraps
      · exact (List.mem_append.mp ha).elim (haccess a) (haccesses a)
      · rw [hread₂, hread, List.append_assoc]
        rfl

/-- If they do not all end inside, something is stored outside. -/
theorem failureCopy_outside {rs : SlTestPtr} (result_str : ByteMem UInt8)
    (htrue : ∀ r ∈ rs, r.TrueLength) (hn : n ≤ size) (hend : size < n + (ended rs).length)
    (hsize : size ≤ intMax) :
    ∃ a, .access a ∈ (failureCopy size result_str n rs).trace ∧ ¬ a.Inside := by
  induction rs generalizing n result_str with
  | nil => exact absurd hend (Nat.not_lt.mpr hn)
  | cons r rs ih =>
      have hr := htrue r List.mem_cons_self
      obtain ⟨-, htrace⟩ := failureCopy_cons size result_str n r rs
      have hlen := length_ended_cons r rs
      by_cases hnext : n + r.stored.length + 2 ≤ size
      · obtain ⟨hoff, -⟩ := copyMsg_true (n := n) result_str hr (by omega)
        rw [hoff] at htrace
        obtain ⟨a, ha, hout⟩ := ih (n := n + r.stored.length + 2)
          (copyMsg result_str n r).1 (fun r hr => htrue r (List.mem_cons_of_mem _ hr))
          hnext (by omega)
        exact ⟨a, htrace ▸ List.mem_append_right _ ha, hout⟩
      · obtain ⟨a, ha, hout⟩ := touchMsg_outside hr hn (by omega) hsize
        exact ⟨a, htrace ▸ List.mem_append_left _ ha, hout⟩

end Copy

/-! ## Chains -/

section Chain

variable {cs : List TestCall} {rs : SlTestPtr}

theorem Nested.createdBy (h : Nested cs rs) {r : SlTestResult} (hr : r ∈ rs) :
    ∃ c, r.CreatedBy c := by
  induction h with
  | null => cases hr
  | create _ hc ih =>
      rcases List.mem_cons.mp hr with rfl | hr
      · exact ⟨_, (create_eq hc).2⟩
      · exact ih hr

theorem Nested.trueLength_iff (h : Nested cs rs) :
    (∀ r ∈ rs, r.TrueLength) ↔ ∀ c ∈ cs, c.Fits := by
  induction h with
  | null => simp
  | create _ hc ih =>
      rw [List.forall_mem_cons, List.forall_mem_cons, ih, (create_eq hc).2.trueLength_iff]

theorem Nested.length_ended (h : Nested cs rs) (hfits : ∀ c ∈ cs, c.Fits) :
    (ended rs).length = totalLength cs := by
  induction h with
  | null => rfl
  | @create cs rs c r _ hc ih =>
      obtain ⟨hc', hcs⟩ := List.forall_mem_cons.mp hfits
      rw [length_ended_cons, ih hcs, (create_eq hc).2.stored_of_fits hc']
      rfl

/-- Lengths that stay inside the stored messages are true. -/
theorem Nested.trueLength_of_le (h : Nested cs rs)
    (hle : ∀ r ∈ rs, r.msgLen ≤ r.stored.length) : ∀ r ∈ rs, r.TrueLength := by
  intro r hr
  obtain ⟨c, hc⟩ := h.createdBy hr
  have hlen : r.msgLen = r.stored.length := Nat.le_antisymm (hle r hr) hc.length_le
  exact ⟨hlen, hlen ▸ hc.length_stored.2⟩

theorem FailureStrOk.of_null {malloc : Malloc} (h : slTestFailureStr malloc rs = pure none) :
    FailureStrOk malloc rs := by
  refine ⟨?_, fun result_str hval => ?_⟩
  · rw [h]
    exact (Returns.pure none).safe
  · rw [h] at hval
    cases hval

/-- The string, once it is allocated. -/
theorem failureStr_some {malloc : Malloc} {r : SlTestResult} {result_str : ByteMem UInt8}
    {size : Nat} (hstatus : r.status ≠ statusOk) (hsize : toSizeT (failureLen 0 (r :: rs)) = size)
    (hblock : malloc.block size = some result_str) :
    let copied := failureCopy size result_str 0 (r :: rs)
    (slTestFailureStr malloc (r :: rs)).val
        = some (copied.val.1.write (toInt (copied.val.2 - 2)).toNat [0])
      ∧ (slTestFailureStr malloc (r :: rs)).trace
        = copied.trace ++ [.access (.write size (toInt (copied.val.2 - 2)) 1)] := by
  simp only [slTestFailureStr, if_neg hstatus, hsize, hblock]
  exact ⟨rfl, rfl⟩

/-- An allocated string is shorter than `INT_MAX`. -/
theorem Malloc.size_le {malloc : Malloc} {n : Int} {result_str : ByteMem UInt8}
    (h : malloc.block (toSizeT (toInt n)) = some result_str) :
    toSizeT (toInt n) ≤ intMax := by
  by_contra hgt
  rw [malloc.limit] at h
  · cases h
  · unfold toSizeT toInt intMax at *
    rw [Int.bmod_def] at *
    omega

/-- An allocated string is made inside the bounds exactly when every message
fits and the sum is an `int`. -/
theorem failureStrOk_some {malloc : Malloc} {r : SlTestResult} {result_str : ByteMem UInt8}
    (h : Nested cs (r :: rs)) (hstatus : r.status ≠ statusOk)
    (hblock : malloc.block (toSizeT (toInt (totalLength cs))) = some result_str) :
    FailureStrOk malloc (r :: rs) ↔ (∀ c ∈ cs, c.Fits) ∧ totalLength cs ≤ intMax := by
  have hsum : failureLen 0 (r :: rs) = toInt (totalLength cs) := by
    rw [failureLen_eq h rfl, zero_add]
  have hsize := Malloc.size_le hblock
  obtain ⟨hval, htrace⟩ := failureStr_some hstatus (congrArg toSizeT hsum) hblock
  constructor
  · rintro ⟨⟨-, haccess⟩, -⟩
    rw [htrace] at haccess
    have htrue := h.trueLength_of_le fun r hr =>
      haccess _ (List.mem_append_left _ (failureCopy_reads hr))
    have hfits := h.trueLength_iff.mp htrue
    refine ⟨hfits, ?_⟩
    by_contra hgt
    obtain ⟨a, ha, hout⟩ := failureCopy_outside (n := 0) result_str htrue
      (Nat.zero_le _) (by rw [h.length_ended hfits]; omega) hsize
    exact hout (haccess a (List.mem_append_left _ ha))
  · rintro ⟨hfits, hle⟩
    have hlen := h.length_ended hfits
    have hended := ended_eq (List.cons_ne_nil r rs)
    have hjoined : (joined (r :: rs)).length + 2 = totalLength cs := by
      rw [← hlen, hended, List.length_append]
      rfl
    have hsize : toSizeT (toInt (totalLength cs)) = totalLength cs := by
      have hint := toInt_of_le (Int.natCast_nonneg (totalLength cs)) (Int.ofNat_le.mpr hle)
      have hcast := toSizeT_of_nonneg (Int.natCast_nonneg (totalLength cs)) (Int.ofNat_le.mpr hle)
      rw [hint]
      exact Int.natCast_inj.mp hcast
    rw [hsize] at hval htrace
    obtain ⟨⟨hwrap, haccess⟩, hoff, hread⟩ := failureCopy_fits (n := 0) result_str
      (h.trueLength_iff.mpr hfits) (by omega : 0 + (ended (r :: rs)).length ≤ totalLength cs) hle
    rw [Nat.zero_add, hlen] at hoff hread
    rw [Int.natCast_zero] at hwrap haccess hoff hread
    have hnul : toInt ((failureCopy (totalLength cs) result_str 0 (r :: rs)).val.2 - 2)
        = (joined (r :: rs)).length := by
      rw [hoff, toInt_of_le (by omega) (by omega)]
      omega
    rw [hnul] at hval htrace
    refine ⟨⟨?_, fun a ha => ?_⟩, fun str hstr => ?_⟩
    · rw [htrace]
      simpa using hwrap
    · rw [htrace] at ha
      rcases List.mem_append.mp ha with ha | ha
      · exact haccess a ha
      · obtain rfl := Effect.access.inj (List.mem_singleton.mp ha)
        exact .inr (by omega)
    · obtain rfl := Option.some.inj (hval.symm.trans hstr)
      have hcopied : (failureCopy (totalLength cs) result_str 0 (r :: rs)).val.1.read 0
          ((joined (r :: rs)).length + 2) = joined (r :: rs) ++ lit "\n\t" := by
        rw [hjoined, hread, ByteMem.read_zero, List.nil_append, hended]
      rw [Int.toNat_natCast]
      refine (ByteMem.read_write_append _ (joined (r :: rs)).length [0]).trans ?_
      rw [← ByteMem.take_read _ 0 (Nat.le_add_right _ 2), hcopied, List.take_left' rfl]

end Chain

/-- **Messages carry their true length** exactly when they fit the block;
and the failure string of a chain is made inside its bounds exactly when
there is none, or every message fits and their sum is an `int`. -/
theorem true_lengths_iff (malloc : Malloc) :
    (∀ (c : TestCall) (inner rest : SlTestPtr) (r : SlTestResult), c.create inner = r :: rest →
        (r.TrueLength ↔ c.Fits))
      ∧ ∀ (cs : List TestCall) (rs : SlTestPtr), Nested cs rs →
        (FailureStrOk malloc rs
          ↔ NoString malloc cs ∨ (∀ c ∈ cs, c.Fits) ∧ totalLength cs ≤ intMax) := by
  refine ⟨fun c inner rest r hc => (create_eq hc).2.trueLength_iff, fun cs rs h => ?_⟩
  cases h with
  | null => exact iff_of_true (.of_null rfl) (.inl trivial)
  | @create cs rs c r h hc =>
      have hnested := h.create hc
      by_cases hstatus : r.status = statusOk
      · refine iff_of_true (.of_null ?_) (.inl (.inl ?_))
        · rw [slTestFailureStr, if_pos hstatus]
        · rw [← (create_eq hc).2.status, hstatus]
      cases hblock : malloc.block (toSizeT (toInt (totalLength (c :: cs)))) with
      | none =>
          refine iff_of_true (.of_null ?_) (.inl (.inr hblock))
          have hsum : failureLen 0 (r :: rs) = toInt (totalLength (c :: cs)) := by
            rw [failureLen_eq hnested rfl, zero_add]
          simp only [slTestFailureStr, if_neg hstatus, hsum, hblock]
      | some result_str =>
          have hstring : ¬ NoString malloc (c :: cs) := by
            rintro (hok | hnone)
            · exact hstatus ((create_eq hc).2.status.trans hok)
            · rw [hblock] at hnone
              cases hnone
          rw [failureStrOk_some hnested hstatus hblock, or_iff_right hstring]

/-- A `malloc` that refuses nothing up to `PTRDIFF_MAX`. -/
def Malloc.ample : Malloc where
  block n := if n < 2 ^ 63 then some fun _ => 0 else none
  limit _ h := if_neg (Nat.not_lt.mpr h)

theorem Malloc.ample_block {n : Nat} (h : n < 2 ^ 63) : Malloc.ample.block n = some fun _ => 0 :=
  if_pos h

/-- A failure with this text. -/
def TestCall.failure (text : Bytes) : TestCall :=
  ⟨some fun _ => 0, lit "test.c", lit "f", 1, statusFail, ⟨text, false⟩⟩

theorem failure_header (text : Bytes) : (TestCall.failure text).header.length = 7 := by
  change (testHeader statusFail (lit "f") 1).bytes.length = 7
  decide

theorem failure_returns (text : Bytes) (inner : SlTestPtr) :
    ∃ r, (TestCall.failure text).create inner = r :: inner :=
  create_returns (.failure text) inner rfl (by rw [failure_header]; decide)

/-- A failed check inside a failed check. -/
theorem true_lengths_iff_run :
    ∃ r r' : SlTestResult,
      Nested [.failure (lit "In g()"), .failure (lit "Unexpected end-of-file.")] [r, r']
        ∧ r'.TrueLength ∧ FailureStrOk .ample [r, r'] := by
  obtain ⟨r', hr'⟩ := failure_returns (lit "Unexpected end-of-file.") []
  obtain ⟨r, hr⟩ := failure_returns (lit "In g()") [r']
  have hnested := (Nested.null.create hr').create hr
  exact ⟨r, r', hnested, ((true_lengths_iff .ample).1 _ _ _ _ hr').mpr (by decide),
    ((true_lengths_iff .ample).2 _ _ hnested).mpr (.inr (by decide))⟩

/-- A text of 1024 bytes behind a header of 7: 1023 bytes are stored, and
1031 are copied from the block of 1024. -/
theorem long_text_overread :
    ¬ (∀ (c : TestCall) (inner rest : SlTestPtr) (r : SlTestResult), c.create inner = r :: rest →
        r.TrueLength)
      ∧ ¬ ∀ (malloc : Malloc) (cs : List TestCall) (rs : SlTestPtr), Nested cs rs →
        FailureStrOk malloc rs := by
  obtain ⟨r, hr⟩ := failure_returns (List.replicate 1024 120) []
  have hlong : ¬ (TestCall.failure (List.replicate 1024 120)).Fits := by decide +kernel
  refine ⟨fun hall => hlong ((create_eq hr).2.trueLength_iff.mp (hall _ _ _ _ hr)), fun hall => ?_⟩
  have hsize : toSizeT (toInt (totalLength [.failure (List.replicate 1024 120)])) < 2 ^ 63 := by
    decide +kernel
  have hstatus : r.status ≠ statusOk := by
    rw [(create_eq hr).2.status]
    decide
  have hok := (failureStrOk_some (Nested.null.create hr) hstatus (Malloc.ample_block hsize)).mp
    (hall _ _ _ (.create .null hr))
  exact hlong (hok.1 _ List.mem_cons_self)

end Streamlike
