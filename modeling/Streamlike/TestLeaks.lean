import Mathlib.Algebra.Module.NatInt
import Streamlike.Lts
import Streamlike.TestMemory

/-!
# What the checks leak

A program that creates, wraps, prints and destroys results, and checks
streams. What is live is what the program has in hand and what is lost
(`results_accounted`): for each result that was destroyed its block, for
each check that got a buffer the buffer, and the results that
`return_if_not_ok` drops when it cannot wrap them.

No function frees the block of a result that was returned, so the results
that `sl_test_destroy` and `sl_test_failure_str` follow along a chain are
live. How far the latter reads into their messages is not looked at here.
-/

namespace Streamlike

namespace Checks

open CFormat

/-! ## Programs that check streams -/

/-- The results and the strings in hand, a `NULL` among the results too; how
many results `sl_test_destroy` has destroyed, how many `return_if_not_ok` has
dropped, how many checks had a buffer, and how often `return_if_not_ok` was
given `NULL`. -/
structure Results where
  heap : Heap Block
  chains : List Chain
  strs : List Nat
  destroyed : Nat
  dropped : Nat
  buffers : Nat
  nulls : Nat

inductive Act (σ : Type) where
  | create (c : TestCall)
  | nest (i : Nat) (c : TestCall)
  | destroy (i : Nat)
  | failureStr (i : Nat)
  | freeStr (i : Nat)
  | returnIfNotOk (i : Nat) (c : TestCall)
  | readExact (fuel : Nat) (stream : StreamlikeT σ) (expected_data : ByteMem UInt8)
      (data_len buf_len : Nat)
  | readUntilEof (fuel : Nat) (stream : StreamlikeT σ) (expected_data : ByteMem UInt8)
      (data_len buf_len : Nat)

section Program

variable (grants : Grants Block) (contents : Nat → ByteMem UInt8) (file : Bytes) {σ : Type}

/-- A check that returns. -/
def Results.after (s : Results) (check : Own Block (Option (Chain × StreamlikeT σ))) :
    Option Results :=
  match check s.heap with
  | (none, _) => none
  | (some (chain, _), heap) =>
      some { s with
        heap
        chains := chain :: s.chains
        buffers := s.buffers + if grants .buffer s.heap.count then 1 else 0 }

/-- A call with the `i`-th result, or string. A result that is given away, as
`inner` or to be destroyed, is not used again. -/
def resultsStep (a : Act σ) (s : Results) : Option Results :=
  match a with
  | .create c =>
      let (chain, heap) := slTestCreate grants contents c [] s.heap
      some { s with heap, chains := chain :: s.chains }
  | .nest i c =>
      match s.chains[i]? with
      | none => none
      | some inner =>
          match slTestCreate grants contents c inner s.heap with
          | ([], heap) => some { s with heap, chains := [] :: s.chains }
          | (chain, heap) => some { s with heap, chains := s.chains.set i chain }
  | .destroy i =>
      match s.chains[i]? with
      | none => none
      | some chain =>
          some { s with
            heap := (slTestDestroy chain s.heap).2
            chains := s.chains.eraseIdx i
            destroyed := s.destroyed + chain.length }
  | .failureStr i =>
      match s.chains[i]? with
      | none => none
      | some chain =>
          match slTestFailureStr grants chain s.heap with
          | (none, heap) => some { s with heap }
          | (some str, heap) => some { s with heap, strs := str :: s.strs }
  | .freeStr i =>
      match s.strs[i]? with
      | none => none
      | some str =>
          some { s with heap := (release (.str, str) s.heap).2, strs := s.strs.eraseIdx i }
  | .returnIfNotOk i c =>
      match s.chains[i]? with
      | none => none
      | some chain =>
          match returnIfNotOk grants contents c chain s.heap with
          | (none, heap) =>
              some { s with
                heap
                chains := s.chains.eraseIdx i
                destroyed := s.destroyed + chain.length
                nulls := s.nulls + if chain.isEmpty then 1 else 0 }
          | (some [], heap) =>
              some { s with
                heap, chains := s.chains.set i [], dropped := s.dropped + chain.length }
          | (some ret, heap) => some { s with heap, chains := s.chains.set i ret }
  | .readExact fuel stream expected_data data_len buf_len =>
      s.after grants
        (slTestReadExact grants contents file fuel stream expected_data data_len buf_len)
  | .readUntilEof fuel stream expected_data data_len buf_len =>
      s.after grants
        (slTestReadUntilEof grants contents file fuel stream expected_data data_len buf_len)

def results (σ : Type) : Lts Results (Act σ) where
  init s := s = ⟨⟨0, 0, false⟩, [], [], 0, 0, 0, 0⟩
  step := resultsStep grants contents file

end Program

/-! ## The accounts -/

def heldBy (chains : List Chain) : Multiset (Thing Block) := (chains.map Chain.held).sum

def strings (strs : List Nat) : Multiset (Thing Block) :=
  (strs.map fun str => {(Block.str, str)}).sum

/-- A call of `sl_test_create` made the result. -/
def Node.Made (r : Node) : Prop := ∃ c, r.value.CreatedBy c

structure Accounted (s : Results) (lost : Multiset (Thing Block)) : Prop where
  holds : s.heap.Holds (heldBy s.chains + (strings s.strs + lost)) (decide (0 < s.nulls))
  lost : lost.map Prod.fst
    = (s.destroyed + s.dropped) • {Block.result} + s.dropped • {Block.msg}
      + s.buffers • {Block.buffer}
  made : ∀ chain ∈ s.chains, ∀ r ∈ chain, r.Made

section Accounts

variable {make : Option (ByteMem UInt8) → SlTestPtr} {inner chain : Chain}
variable {owned owned' : Multiset (Thing Block)} {chains : List Chain} {i : Nat}

theorem heldBy_cons (chain : Chain) (chains : List Chain) :
    heldBy (chain :: chains) = chain.held + heldBy chains := by
  rw [heldBy, List.map_cons, List.sum_cons]
  rfl

theorem heldBy_erase (h : chains[i]? = some chain) :
    heldBy chains = chain.held + heldBy (chains.eraseIdx i) :=
  sum_eraseIdx Chain.held h

theorem heldBy_set (h : chains[i]? = some chain) (chain' : Chain) :
    heldBy (chains.set i chain') = chain'.held + heldBy (chains.eraseIdx i) :=
  sum_set Chain.held h chain'

theorem strings_cons (str : Nat) (strs : List Nat) :
    strings (str :: strs) = {(.str, str)} + strings strs := by
  rw [strings, List.map_cons, List.sum_cons]
  rfl

theorem map_records : ∀ chain : Chain,
    chain.records.map Prod.fst = chain.length • {Block.result}
  | [] => rfl
  | r :: inner => by
      rw [records_cons, Multiset.map_add, map_records inner, List.length_cons, succ_nsmul']
      rfl

theorem map_held : ∀ chain : Chain,
    chain.held.map Prod.fst = chain.length • {Block.result} + chain.length • {Block.msg}
  | [] => rfl
  | r :: inner => by
      rw [held_cons, Multiset.map_add, map_held inner, List.length_cons, succ_nsmul', succ_nsmul',
        add_add_add_comm]
      rfl

/-- Without `inner`, the new chain is what is new. -/
theorem Created.alone (h : Created make [] chain owned owned') : owned' = chain.held + owned := by
  rcases h with ⟨rfl, rfl⟩ | ⟨r, block, rest, rfl, rfl, -⟩
  · exact (zero_add _).symm
  · exact congrArg (· + owned) (add_zero r.held).symm

theorem Created.made (h : Created make inner chain owned owned')
    (hmake : ∀ block r rest, make (some block) = r :: rest → ∃ c, r.CreatedBy c)
    (hinner : ∀ r ∈ inner, r.Made) : ∀ r ∈ chain, r.Made := by
  rcases h with ⟨rfl, -⟩ | ⟨r, block, rest, rfl, -, hr⟩
  · exact fun _ h => by cases h
  · exact List.forall_mem_cons.mpr ⟨hmake block r.value rest hr, hinner⟩

theorem made_create (c : TestCall) (inner : SlTestPtr) (block : ByteMem UInt8)
    (r : SlTestResult) (rest : SlTestPtr)
    (h : { c with block := some block }.create inner = r :: rest) : ∃ c, r.CreatedBy c :=
  ⟨_, (create_eq h).2⟩

/-- A check that reports makes its result with `sl_test_create`. -/
theorem made_check {σ : Type}
    {check : Option (ByteMem UInt8) → Option (SlTestPtr × StreamlikeT σ)} (h : Reports check)
    (block : ByteMem UInt8) (r : SlTestResult) (rest : SlTestPtr)
    (hr : ((check (some block)).map Prod.fst).getD [] = r :: rest) : ∃ c, r.CreatedBy c := by
  rcases h with hnone | ⟨c, stream, hsome⟩
  · rw [hnone] at hr
    cases hr
  · rw [hsome] at hr
    exact made_create c [] block r rest hr

theorem made_cons (h : ∀ chain ∈ chains, ∀ r ∈ chain, r.Made) (hchain : ∀ r ∈ chain, r.Made) :
    ∀ chain' ∈ chain :: chains, ∀ r ∈ chain', r.Made :=
  List.forall_mem_cons.mpr ⟨hchain, h⟩

theorem made_set (h : ∀ chain ∈ chains, ∀ r ∈ chain, r.Made) (hchain : ∀ r ∈ chain, r.Made) :
    ∀ chain' ∈ chains.set i chain, ∀ r ∈ chain', r.Made := by
  intro chain' hmem
  rcases List.mem_or_eq_of_mem_set hmem with hmem | rfl
  · exact h chain' hmem
  · exact hchain

end Accounts

section Steps

variable {grants : Grants Block} {contents : Nat → ByteMem UInt8} {file : Bytes} {σ : Type}
variable {s s' : Results} {lost : Multiset (Thing Block)}

/-- The chain that a call uses, before the rest. -/
theorem Accounted.takes {i : Nat} {chain : Chain} (h : Accounted s lost)
    (hi : s.chains[i]? = some chain) :
    s.heap.Holds (chain.held + (heldBy (s.chains.eraseIdx i) + (strings s.strs + lost)))
      (decide (0 < s.nulls)) := by
  rw [← add_assoc, ← heldBy_erase hi]
  exact h.holds

/-- A check that returns hands over its result and loses its buffer. -/
theorem Accounted.after {check : TestEnv → Option (SlTestPtr × StreamlikeT σ)}
    (h : Accounted s lost)
    (hreports : ∀ buf, Reports fun block => check ⟨file, buf, block⟩)
    (hs : s.after grants (checked grants contents file check) = some s') :
    ∃ lost', Accounted s' lost' := by
  obtain ⟨owned, hholds, hcreated⟩ := @checked_spec grants contents _ _ _ _ h.holds file check
  unfold Results.after at hs
  rcases hcall : checked grants contents file check s.heap with ⟨_ | ⟨chain, stream⟩, heap⟩
  · rw [hcall] at hs
    cases hs
  · rw [hcall] at hs hholds hcreated
    obtain ⟨buf, hcreated⟩ := hcreated _ rfl
    obtain rfl := Option.some.inj hs
    refine ⟨(if grants .buffer s.heap.count then {(.buffer, s.heap.count)} else 0) + lost, ?_, ?_,
      made_cons h.made (hcreated.made (made_check (hreports buf)) fun _ h => by cases h)⟩
    · rw [hcreated.alone] at hholds
      dsimp only
      rw [heldBy_cons]
      convert hholds using 1
      abel
    · dsimp only
      rw [Multiset.map_add, h.lost, add_comm (Multiset.map _ _), add_assoc]
      refine congrArg _ ?_
      split
      · exact (succ_nsmul _ _).symm
      · exact add_zero _

theorem Accounted.create {c : TestCall} (h : Accounted s lost)
    (hs : resultsStep grants contents file (.create c : Act σ) s = some s') :
    ∃ lost', Accounted s' lost' := by
  obtain ⟨owned, bad, ⟨rfl, hcreated⟩, hholds⟩ :=
    @slTestCreate_spec grants contents _ _ c [] s.heap h.holds
  have hmade := hcreated.made (made_create c []) fun _ h => by cases h
  rw [resultsStep] at hs
  rcases hcall : slTestCreate grants contents c [] s.heap with ⟨chain, heap⟩
  rw [hcall] at hs hholds hcreated hmade
  obtain rfl := Option.some.inj hs
  refine ⟨lost, ?_, h.lost, made_cons h.made hmade⟩
  dsimp only
  rw [heldBy_cons, add_assoc, ← hcreated.alone]
  exact hholds

theorem Accounted.nest {i : Nat} {c : TestCall} (h : Accounted s lost)
    (hs : resultsStep grants contents file (.nest i c : Act σ) s = some s') :
    ∃ lost', Accounted s' lost' := by
  rw [resultsStep] at hs
  split at hs
  · cases hs
  · next inner hi =>
    obtain ⟨owned, bad, ⟨rfl, hcreated⟩, hholds⟩ :=
      @slTestCreate_spec grants contents _ _ c inner s.heap (h.takes hi)
    have hmade := hcreated.made (made_create c inner.value) (h.made inner (List.mem_of_getElem? hi))
    rcases hcall : slTestCreate grants contents c inner s.heap with ⟨chain, heap⟩
    rw [hcall] at hs hholds hcreated hmade
    rcases hcreated with ⟨hnull, rfl⟩ | ⟨r, block, rest, hchain, rfl, -⟩
    · obtain rfl : chain = [] := hnull
      obtain rfl := Option.some.inj hs
      refine ⟨lost, ?_, h.lost, made_cons h.made hmade⟩
      dsimp only
      rw [heldBy_cons, heldBy_erase hi, add_assoc, add_assoc]
      exact (zero_add (Chain.held inner + _)).symm ▸ hholds
    · obtain rfl : chain = r :: inner := hchain
      obtain rfl := Option.some.inj hs
      refine ⟨lost, ?_, h.lost, made_set h.made hmade⟩
      dsimp only
      rw [heldBy_set hi, held_cons, add_assoc, add_assoc]
      exact hholds

theorem Accounted.destroy {i : Nat} (h : Accounted s lost)
    (hs : resultsStep grants contents file (.destroy i : Act σ) s = some s') :
    ∃ lost', Accounted s' lost' := by
  rw [resultsStep] at hs
  split at hs
  · cases hs
  · next chain hi =>
    obtain ⟨owned, bad, ⟨rfl, rfl⟩, hholds⟩ := slTestDestroy_spec rfl s.heap (h.takes hi)
    obtain rfl := Option.some.inj hs
    refine ⟨chain.records + lost, ?_, ?_,
      fun chain' hmem => h.made chain' (List.mem_of_mem_eraseIdx hmem)⟩
    · rw [add_left_comm (strings s.strs), add_left_comm (heldBy _)]
      exact hholds
    · rw [Multiset.map_add, h.lost, map_records]
      simp only [add_nsmul]
      abel

theorem Accounted.failureStr {i : Nat} (h : Accounted s lost)
    (hs : resultsStep grants contents file (.failureStr i : Act σ) s = some s') :
    ∃ lost', Accounted s' lost' := by
  rw [resultsStep] at hs
  split at hs
  · cases hs
  · next chain hi =>
    obtain ⟨owned, bad, ⟨rfl, rfl⟩, hholds⟩ :=
      @slTestFailureStr_spec grants _ _ chain s.heap h.holds
    rcases hcall : slTestFailureStr grants chain s.heap with ⟨_ | str, heap⟩
    · rw [hcall] at hs hholds
      obtain rfl := Option.some.inj hs
      refine ⟨lost, ?_, h.lost, h.made⟩
      exact (zero_add (heldBy s.chains + _)) ▸ hholds
    · rw [hcall] at hs hholds
      obtain rfl := Option.some.inj hs
      refine ⟨lost, ?_, h.lost, h.made⟩
      dsimp only
      rw [strings_cons, add_assoc, add_left_comm]
      exact hholds

theorem Accounted.freeStr {i : Nat} (h : Accounted s lost)
    (hs : resultsStep grants contents file (.freeStr i : Act σ) s = some s') :
    ∃ lost', Accounted s' lost' := by
  rw [resultsStep] at hs
  split at hs
  · cases hs
  · next str hi =>
    have hstr : heldBy s.chains + (strings s.strs + lost)
        = {(Block.str, str)} + (heldBy s.chains + (strings (s.strs.eraseIdx i) + lost)) := by
      rw [strings, sum_eraseIdx (fun str => {(Block.str, str)}) hi, add_assoc, add_left_comm]
      rfl
    have hfree : Ensures (release (Block.str, str)) (heldBy s.chains + (strings s.strs + lost))
        (decide (0 < s.nulls)) fun _ owned' bad' => bad' = decide (0 < s.nulls)
          ∧ owned' = heldBy s.chains + (strings (s.strs.eraseIdx i) + lost) :=
      .release hstr ⟨rfl, rfl⟩
    obtain ⟨owned, bad, ⟨rfl, rfl⟩, hholds⟩ := hfree s.heap h.holds
    obtain rfl := Option.some.inj hs
    exact ⟨lost, hholds, h.lost, h.made⟩

theorem Accounted.returned {i : Nat} {c : TestCall} (h : Accounted s lost)
    (hs : resultsStep grants contents file (.returnIfNotOk i c : Act σ) s = some s') :
    ∃ lost', Accounted s' lost' := by
  rw [resultsStep] at hs
  split at hs
  · cases hs
  · next chain hi =>
    obtain ⟨owned, bad, hret, hholds⟩ :=
      @returnIfNotOk_spec grants contents _ _ _ c _ rfl s.heap (h.takes hi)
    have hchain := h.made chain (List.mem_of_getElem? hi)
    rcases hcall : returnIfNotOk grants contents c chain s.heap with ⟨_ | ret, heap⟩
    · rw [hcall] at hs hret hholds
      obtain ⟨rfl, rfl⟩ := hret
      obtain rfl := Option.some.inj hs
      refine ⟨chain.records + lost, ?_, ?_,
        fun chain' hmem => h.made chain' (List.mem_of_mem_eraseIdx hmem)⟩
      · dsimp only
        rw [add_left_comm (strings s.strs), add_left_comm (heldBy _)]
        convert hholds using 1
        cases chain <;> simp
      · rw [Multiset.map_add, h.lost, map_records]
        simp only [add_nsmul]
        abel
    · rw [hcall] at hs hret hholds
      obtain ⟨rfl, status, hcreated⟩ := hret
      have hmade := hcreated.made (made_create { c with status } chain.value) hchain
      rcases hcreated with ⟨hnull, rfl⟩ | ⟨r, block, rest, hret, rfl, -⟩
      · -- the chain is dropped
        obtain rfl : ret = [] := hnull
        obtain rfl := Option.some.inj hs
        refine ⟨chain.held + lost, ?_, ?_, made_set h.made hmade⟩
        · dsimp only
          rw [heldBy_set hi, add_assoc, add_left_comm (strings s.strs), add_left_comm (heldBy _)]
          exact (zero_add (Chain.held chain + _)).symm ▸ hholds
        · rw [Multiset.map_add, h.lost, map_held]
          simp only [add_nsmul]
          abel
      · obtain rfl : ret = r :: chain := hret
        obtain rfl := Option.some.inj hs
        refine ⟨lost, ?_, h.lost, made_set h.made hmade⟩
        dsimp only
        rw [heldBy_set hi, held_cons, add_assoc, add_assoc]
        exact hholds

end Steps

/-- **What the checks leak.** In every run of a program that creates, wraps,
prints and destroys results and checks streams, whichever requests are
refused, what is live is what the program has in hand, and what is lost: a
result without its message for each that was destroyed, a whole one for each
that `return_if_not_ok` dropped, and the buffer of each check that had one.
Nothing is freed that is not live, and a null pointer is followed just where
`return_if_not_ok` is given one. A result in hand is one that
`sl_test_create` made. What is read and written inside a block is left out. -/
theorem results_accounted (grants : Grants Block) (contents : Nat → ByteMem UInt8)
    (file : Bytes) {σ : Type} {s : Results}
    (h : (results grants contents file σ).Reach Lts.Any s) :
    (∃ lost, s.heap.live = heldBy s.chains + strings s.strs + lost
      ∧ lost.map Prod.fst = (s.destroyed + s.dropped) • {Block.result}
        + s.dropped • {Block.msg} + s.buffers • {Block.buffer})
      ∧ (s.heap.misused = true ↔ 0 < s.nulls)
      ∧ ∀ chain ∈ s.chains, ∀ r ∈ chain, r.Made := by
  obtain ⟨lost, hacc⟩ : ∃ lost, Accounted s lost := by
    refine h.invariant (I := fun s => ∃ lost, Accounted s lost) ?_ ?_
    · rintro _ rfl
      exact ⟨0, ⟨rfl, rfl, by simp [heldBy, strings]⟩, by simp, fun _ h => by cases h⟩
    · rintro s a s' - ⟨lost, hi⟩ - (hs : resultsStep grants contents file a s = some s')
      cases a with
      | create c => exact hi.create hs
      | nest i c => exact hi.nest hs
      | destroy i => exact hi.destroy hs
      | failureStr i => exact hi.failureStr hs
      | freeStr i => exact hi.freeStr hs
      | returnIfNotOk i c => exact hi.returned hs
      | readExact fuel stream expected_data data_len buf_len =>
          exact hi.after (fun buf =>
            slTestReadExact_reports file buf expected_data buf_len fuel stream data_len) hs
      | readUntilEof fuel stream expected_data data_len buf_len =>
          exact hi.after (fun buf =>
            slTestReadUntilEof_reports file buf expected_data buf_len fuel stream data_len) hs
  refine ⟨⟨lost, ?_, hacc.lost⟩, ?_, hacc.made⟩
  · rw [hacc.holds.live, add_assoc]
  · rw [hacc.holds.misused, decide_eq_true_iff]

/-- A check fails, its result is wrapped, printed and destroyed: two results
and a buffer are lost. -/
theorem results_accounted_run :
    ∃ s, (results (fun _ _ => true) (fun _ _ => 0) (lit "test.h") (Nat × Bool)).run
        [.readExact 3 (contentStream false [1]) (fun _ => 1) 2 2,
          .returnIfNotOk 0 ⟨none, lit "check.c", lit "check", 7, statusOk, ⟨lit "In", false⟩⟩,
          .failureStr 0, .freeStr 0, .destroy 0] ⟨⟨0, 0, false⟩, [], [], 0, 0, 0, 0⟩ = some s
      ∧ s.heap.live.map Prod.fst = {Block.result, Block.result, Block.buffer}
      ∧ s.heap.misused = false := by
  let M := results (fun _ _ => true) (fun _ _ => 0) (lit "test.h") (Nat × Bool)
  let acts : List (Act (Nat × Bool)) := [.readExact 3 (contentStream false [1]) (fun _ => 1) 2 2,
    .returnIfNotOk 0 ⟨none, lit "check.c", lit "check", 7, statusOk, ⟨lit "In", false⟩⟩,
    .failureStr 0, .freeStr 0, .destroy 0]
  let s₀ : Results := ⟨⟨0, 0, false⟩, [], [], 0, 0, 0, 0⟩
  have hrun : (M.run acts s₀).map (fun s => (s.chains.length, s.strs.length, s.destroyed,
      s.dropped, s.buffers, s.nulls)) = some (0, 0, 2, 0, 1, 0) := by decide +kernel
  obtain ⟨s, hs, heq⟩ := Option.map_eq_some_iff.mp hrun
  simp only [Prod.mk.injEq, List.length_eq_zero_iff] at heq
  obtain ⟨hchains, hstrs, hdestroyed, hdropped, hbuffers, hnulls⟩ := heq
  obtain ⟨⟨lost, hlive, hlost⟩, hmisused, -⟩ :=
    results_accounted _ _ _ (.run (M := M) (fun _ _ _ => trivial) (.init rfl) hs)
  refine ⟨s, hs, ?_, ?_⟩
  · rw [hlive, hchains, hstrs, heldBy, strings, List.map_nil, List.map_nil, List.sum_nil,
      zero_add, zero_add, hlost, hdestroyed, hdropped, hbuffers]
    rfl
  · rw [← Bool.not_eq_true, hmisused, hnulls]
    exact Nat.lt_irrefl 0

end Checks

end Streamlike
