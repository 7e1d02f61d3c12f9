import Shading.Proofs.Binary.Bodies
import Shading.Proofs.Binary.Streams

/-! # What validation accepts

`Check` lists the kinds of things that are checked of a binary, `Check.Holds` says what each asks for
and `Check.Fails` with which fault it is refused, neither of them by way of the functions that check.
`checks` puts all checks of a binary in order.  Validation succeeds exactly if all of them hold, and
otherwise gives the fault of the first that fails (`validate_exact`).

The body of a record is checked word by word: its fault is that of the first call out of range or of
the first words that are no instruction, whichever comes first (`WordsFail`). -/

namespace Shading.Text

theorem utf8Bytes_ofUtf8? {bytes : List UInt8} {text : String} (h : ofUtf8? bytes = some text) :
    utf8Bytes text = bytes := by
  unfold ofUtf8? String.fromUTF8? at h
  split at h
  case isTrue => rw [← Option.some.inj h]; rfl
  case isFalse => cases h

theorem ofUtf8?_utf8Bytes (text : String) : ofUtf8? (utf8Bytes text) = some text := by
  unfold ofUtf8? utf8Bytes String.fromUTF8?
  exact dif_pos text.isValidUTF8

end Shading.Text

namespace Shading.Binary

/-! ### Ranges -/

namespace Range

variable {α : Type} {r : Range} {table part : List α}

/-- The range covers this part of a table, with its offset and length as natural numbers. -/
def Covers (r : Range) (table part : List α) : Prop :=
  ∃ front back, table = front ++ part ++ back ∧
    front.length = r.offset.toNat ∧ part.length = r.length.toNat

theorem slice?_eq_some_iff : r.slice? table = some part ↔ r.Covers table part := by
  unfold slice?
  constructor
  · intro h
    split at h
    case isTrue hle =>
      cases h
      refine ⟨table.take r.offset.toNat,
        (table.drop r.offset.toNat).drop r.length.toNat, ?_, ?_, ?_⟩
      · rw [List.append_assoc, List.take_append_drop, List.take_append_drop]
      · rw [List.length_take]
        omega
      · rw [List.length_take, List.length_drop]
        omega
    case isFalse => cases h
  · rintro ⟨front, back, rfl, hfront, hpart⟩
    rw [if_pos]
    · rw [← hfront, ← hpart, List.append_assoc, List.drop_left, List.take_left]
    · simp only [List.length_append]
      omega

theorem slice?_eq_none_iff :
    r.slice? table = none ↔ table.length < r.offset.toNat + r.length.toNat := by
  unfold slice?
  split
  case isTrue hle => simp; omega
  case isFalse hlt => simp; omega

end Range

/-! ### Names and types -/

theorem checkName_eq_ok_iff {b : Binary} {r : Range} :
    b.checkName r = .ok () ↔ ∃ text, r.Covers b.strings (Text.utf8Bytes text) := by
  unfold checkName nameBytes?
  cases hslice : r.slice? b.strings with
  | none =>
      constructor
      · intro h
        cases h
      · rintro ⟨text, htext⟩
        rw [Range.slice?_eq_some_iff.mpr htext] at hslice
        cases hslice
  | some bytes =>
      dsimp only
      constructor
      · intro h
        cases htext : Text.ofUtf8? bytes with
        | none =>
            rw [htext] at h
            cases h
        | some text =>
            refine ⟨text, Range.slice?_eq_some_iff.mp ?_⟩
            rw [hslice, Text.utf8Bytes_ofUtf8? htext]
      · rintro ⟨text, htext⟩
        rw [Range.slice?_eq_some_iff.mpr htext] at hslice
        cases hslice
        rw [Text.ofUtf8?_utf8Bytes]

/-- The types that are defined are the first nine. -/
theorem checkType_eq {type : TypeId} :
    checkType type =
      if type.number.toNat < 9 then .ok () else .error (.undefinedType type.number) := by
  have hlength : (Named.all (α := BuiltinType)).length = 9 := rfl
  unfold checkType TypeId.builtin?
  by_cases h : type.number.toNat < 9
  · rw [if_pos h, List.getElem?_eq_getElem (by omega)]
  · rw [if_neg h, List.getElem?_eq_none (by omega)]

/-! ### Words of a body -/

/-- All calls go to one of `functions` functions. -/
def CallsWithin (functions : Nat) (is : List Unplaced) : Prop :=
  ∀ index, (Opcode.call, [index]) ∈ is → index.toNat < functions

/-- The words are no body, for the reason given: behind instructions that are in order there is a call
out of range, or there are words of which no instruction can be read. -/
inductive WordsFail (functions : Nat) (words : List UInt32) : Fault → Prop
  | call {is : List Unplaced} {index : UInt32} {rest : List UInt32}
      (hwords : words = written is ++ (instructionWords .call [index] ++ rest))
      (hfits : ∀ i ∈ is, i.Fits) (hcalls : CallsWithin functions is)
      (hindex : functions ≤ index.toNat) : WordsFail functions words (.callTarget index functions)
  | stuck {is : List Unplaced} {rest : List UInt32} {fault : Fault}
      (hwords : words = written is ++ rest) (hfits : ∀ i ∈ is, i.Fits)
      (hcalls : CallsWithin functions is) (hstuck : Stuck (written is).length rest fault) :
      WordsFail functions words fault

theorem checkCall_of_ne {functions : Nat} {i : Instruction} (h : i.opcode ≠ .call) :
    checkCall functions i = .ok () := by
  obtain ⟨offset, opcode, operands⟩ := i
  cases opcode with
  | call => exact absurd rfl h
  | nop | ret | discard => rfl

theorem checkCall_call (functions offset : Nat) (index : UInt32) :
    checkCall functions ⟨offset, .call, [index]⟩ =
      if index.toNat < functions then .ok () else .error (.callTarget index functions) := rfl

theorem Unplaced.Fits.eq_call {i : Unplaced} (h : i.Fits) (hcall : i.1 = .call) :
    ∃ index, i = (.call, [index]) := by
  obtain ⟨opcode, operands⟩ := i
  obtain rfl : opcode = .call := hcall
  obtain ⟨index, rfl⟩ := List.length_eq_one_iff.mp h
  exact ⟨index, rfl⟩

theorem CallsWithin.checkCall {functions offset : Nat} {is : List Unplaced}
    (hcalls : CallsWithin functions is) (hfits : ∀ i ∈ is, i.Fits) :
    ∀ i ∈ placed offset is, checkCall functions i = .ok () := by
  intro i hi
  have hmem : i.unplaced ∈ is := by
    rw [← map_unplaced_placed offset is]
    exact List.mem_map_of_mem hi
  by_cases hcall : i.opcode = .call
  · obtain ⟨index, hindex⟩ := (hfits _ hmem).eq_call hcall
    obtain ⟨place, opcode, operands⟩ := i
    cases hindex
    rw [checkCall_call, if_pos (hcalls index hmem)]
  · exact checkCall_of_ne hcall

/-- Instructions in order are gone through, up to the first call out of range. -/
theorem exists_call_of_not_callsWithin {functions : Nat} {is : List Unplaced}
    (h : ¬CallsWithin functions is) :
    ∃ front index back, is = front ++ (.call, [index]) :: back ∧ CallsWithin functions front ∧
      functions ≤ index.toNat := by
  induction is with
  | nil => exact absurd (fun index hindex => absurd hindex List.not_mem_nil) h
  | cons i is ih =>
      by_cases hi : ∃ index, i = (.call, [index]) ∧ functions ≤ index.toNat
      · obtain ⟨index, rfl, hindex⟩ := hi
        exact ⟨[], index, is, rfl, by simp [CallsWithin], hindex⟩
      · have hhere : ∀ index, (Opcode.call, [index]) = i → index.toNat < functions := by
          intro index hindex
          by_contra hlt
          exact hi ⟨index, hindex.symm, by omega⟩
        have hrest : ¬CallsWithin functions is := by
          intro hcalls
          apply h
          intro index hindex
          rcases List.mem_cons.mp hindex with heq | hmem
          · exact hhere index heq
          · exact hcalls index hmem
        obtain ⟨front, index, back, rfl, hfront, hindex⟩ := ih hrest
        refine ⟨i :: front, index, back, rfl, ?_, hindex⟩
        intro other hother
        rcases List.mem_cons.mp hother with heq | hmem
        · exact hhere other heq
        · exact hfront other hmem

theorem checkWords_written {functions : Nat} {is : List Unplaced} (hfits : ∀ i ∈ is, i.Fits)
    (hcalls : CallsWithin functions is) : checkWords functions (written is) = .ok () := by
  unfold checkWords
  rw [readInstructions_written hfits, bind_eq_ok]
  exact ⟨(), forM_eq_ok.mpr (hcalls.checkCall hfits), rfl⟩

theorem checkWords_of_wordsFail {functions : Nat} {words : List UInt32} {fault : Fault}
    (h : WordsFail functions words fault) : checkWords functions words = .error fault := by
  unfold checkWords readInstructions
  cases h with
  | @call is index rest hwords hfits hcalls hindex =>
      rw [hwords, readInstructionsAt_written hfits, readInstructionsAt_instructionWords rfl]
      have hcheck : ((placed 0 is) ++ ⟨0 + (written is).length, .call, [index]⟩ ::
          (readInstructionsAt (0 + (written is).length + 2) rest).instructions).forM
            (checkCall functions) = .error (.callTarget index functions) := by
        rw [forM_eq_error]
        refine ⟨_, _, _, rfl, hcalls.checkCall hfits, ?_⟩
        rw [checkCall_call, if_neg (by omega)]
      exact congrArg (· >>= _) hcheck
  | @stuck is rest fault hwords hfits hcalls hstuck =>
      rw [← Nat.zero_add (written is).length] at hstuck
      rw [hwords, readInstructionsAt_written hfits, readInstructionsAt_stuck hstuck]
      have hcheck : ((placed 0 is) ++ []).forM (checkCall functions) = .ok () := by
        rw [List.append_nil]
        exact forM_eq_ok.mpr (hcalls.checkCall hfits)
      exact congrArg (· >>= _) hcheck

/-- Words are a body, or they fail. -/
theorem written_or_wordsFail (functions : Nat) (words : List UInt32) :
    (∃ is, words = written is ∧ (∀ i ∈ is, i.Fits) ∧ CallsWithin functions is) ∨
      ∃ fault, WordsFail functions words fault := by
  obtain ⟨is, rest, hfits, hwords, hrest⟩ := exists_written words 0
  by_cases hcalls : CallsWithin functions is
  · rcases hrest with rfl | ⟨fault, hstuck⟩
    · rw [List.append_nil] at hwords
      exact .inl ⟨is, hwords, hfits, hcalls⟩
    · rw [Nat.zero_add] at hstuck
      exact .inr ⟨fault, .stuck hwords hfits hcalls hstuck⟩
  · obtain ⟨front, index, back, rfl, hfront, hindex⟩ := exists_call_of_not_callsWithin hcalls
    have hsplit : words =
        written front ++ (instructionWords .call [index] ++ (written back ++ rest)) := by
      rw [hwords, written_append, written_cons]
      simp only [List.append_assoc]
    have hbefore : ∀ i ∈ front, i.Fits := fun i hi => hfits i (List.mem_append_left _ hi)
    exact .inr ⟨_, .call hsplit hbefore hfront hindex⟩

theorem checkWords_eq_ok_iff {functions : Nat} {words : List UInt32} :
    checkWords functions words = .ok () ↔
      ∃ is, words = written is ∧ (∀ i ∈ is, i.Fits) ∧ CallsWithin functions is := by
  constructor
  · intro h
    rcases written_or_wordsFail functions words with hbody | ⟨fault, hfail⟩
    · exact hbody
    · rw [checkWords_of_wordsFail hfail] at h
      cases h
  · rintro ⟨is, rfl, hfits, hcalls⟩
    exact checkWords_written hfits hcalls

theorem checkWords_eq_error_iff {functions : Nat} {words : List UInt32} {fault : Fault} :
    checkWords functions words = .error fault ↔ WordsFail functions words fault := by
  constructor
  · intro h
    rcases written_or_wordsFail functions words with ⟨is, rfl, hfits, hcalls⟩ | ⟨other, hfail⟩
    · rw [checkWords_written hfits hcalls] at h
      cases h
    · rw [checkWords_of_wordsFail hfail] at h
      cases h
      exact hfail
  · exact checkWords_of_wordsFail

/-! ### Checks -/

/-- One thing that is checked of a binary. -/
inductive Check where
  | name (range : Range)
  | type (id : TypeId)
  | body (range : Range)

namespace Check

/-- What is asked for: a name is UTF-8 in the string table, a type is one of the nine, and a body lies
in the code and is made of instructions that call functions of the binary. -/
def Holds (b : Binary) : Check → Prop
  | name range => ∃ text, range.Covers b.strings (Text.utf8Bytes text)
  | type id => id.number.toNat < 9
  | body range => ∃ is, range.Covers b.code (written is) ∧ (∀ i ∈ is, i.Fits) ∧
      CallsWithin b.functions.length is

/-- What is wrong where this is not so. -/
inductive Fails (b : Binary) : Check → Fault → Prop
  | nameRange {range : Range}
      (h : b.strings.length < range.offset.toNat + range.length.toNat) :
      Fails b (name range) (.nameRange range.offset range.length b.strings.length)
  | nameEncoding {range : Range} {bytes : List UInt8} (h : range.Covers b.strings bytes)
      (hbytes : ∀ text, Text.utf8Bytes text ≠ bytes) :
      Fails b (name range) (.nameEncoding range.offset range.length)
  | undefinedType {id : TypeId} (h : 9 ≤ id.number.toNat) :
      Fails b (type id) (.undefinedType id.number)
  | codeRange {range : Range} (h : b.code.length < range.offset.toNat + range.length.toNat) :
      Fails b (body range) (.codeRange range.offset range.length b.code.length)
  | words {range : Range} {words : List UInt32} {fault : Fault} (h : range.Covers b.code words)
      (hwords : WordsFail b.functions.length words fault) : Fails b (body range) fault

/-- The check as it is made. -/
def run (b : Binary) : Check → Except Fault Unit
  | name range => b.checkName range
  | type id => checkType id
  | body range => b.checkBody range

theorem run_eq_ok_iff {b : Binary} {c : Check} : c.run b = .ok () ↔ c.Holds b := by
  cases c with
  | name range => exact checkName_eq_ok_iff
  | type id =>
      show checkType id = .ok () ↔ id.number.toNat < 9
      rw [checkType_eq]
      split <;> simp [*]
  | body range =>
      show b.checkBody range = .ok () ↔ _
      unfold checkBody words?
      cases hslice : range.slice? b.code with
      | none =>
          constructor
          · intro h
            cases h
          · rintro ⟨is, hcovers, _⟩
            rw [Range.slice?_eq_some_iff.mpr hcovers] at hslice
            cases hslice
      | some words =>
          show checkWords b.functions.length words = .ok () ↔ _
          rw [checkWords_eq_ok_iff]
          constructor
          · rintro ⟨is, rfl, hbody⟩
            exact ⟨is, Range.slice?_eq_some_iff.mp hslice, hbody⟩
          · rintro ⟨is, hcovers, hbody⟩
            rw [Range.slice?_eq_some_iff.mpr hcovers] at hslice
            cases hslice
            exact ⟨is, rfl, hbody⟩

theorem run_eq_error_iff {b : Binary} {c : Check} {fault : Fault} :
    c.run b = .error fault ↔ c.Fails b fault := by
  constructor
  · intro h
    cases c with
    | name range =>
        change b.checkName range = .error fault at h
        unfold checkName nameBytes? at h
        cases hslice : range.slice? b.strings with
        | none =>
            rw [hslice] at h
            cases h
            exact .nameRange (Range.slice?_eq_none_iff.mp hslice)
        | some bytes =>
            rw [hslice] at h
            dsimp only at h
            cases htext : Text.ofUtf8? bytes with
            | none =>
                rw [htext] at h
                cases h
                refine .nameEncoding (Range.slice?_eq_some_iff.mp hslice) ?_
                rintro text rfl
                rw [Text.ofUtf8?_utf8Bytes] at htext
                cases htext
            | some text =>
                rw [htext] at h
                cases h
    | type id =>
        change checkType id = .error fault at h
        rw [checkType_eq] at h
        split at h
        case isTrue => cases h
        case isFalse hle =>
          cases h
          exact .undefinedType (Nat.le_of_not_lt hle)
    | body range =>
        change b.checkBody range = .error fault at h
        unfold checkBody words? at h
        cases hslice : range.slice? b.code with
        | none =>
            rw [hslice] at h
            cases h
            exact .codeRange (Range.slice?_eq_none_iff.mp hslice)
        | some words =>
            rw [hslice] at h
            exact .words (Range.slice?_eq_some_iff.mp hslice) (checkWords_eq_error_iff.mp h)
  · intro h
    cases h with
    | nameRange h => simp only [run, checkName, nameBytes?, Range.slice?_eq_none_iff.mpr h]
    | @nameEncoding range bytes h hbytes =>
        have hnone : Text.ofUtf8? bytes = none := by
          rw [Option.eq_none_iff_forall_ne_some]
          intro text htext
          exact hbytes text (Text.utf8Bytes_ofUtf8? htext)
        simp only [run, checkName, nameBytes?, Range.slice?_eq_some_iff.mpr h, hnone]
    | undefinedType h =>
        show checkType _ = _
        rw [checkType_eq, if_neg (Nat.not_lt.mpr h)]
    | codeRange h => simp only [run, checkBody, words?, Range.slice?_eq_none_iff.mpr h]
    | words h hwords =>
        simp only [run, checkBody, words?, Range.slice?_eq_some_iff.mpr h]
        exact checkWords_eq_error_iff.mpr hwords

end Check

/-- The checks of parameters: that of its type, for each. -/
def parameterChecks (parameters : List Parameter) : List Check :=
  parameters.map fun p => .type p.type

/-- The checks of an entrypoint: its name, the types of inputs and outputs, its body. -/
def Entrypoint.checks (e : Entrypoint) : List Check :=
  .name e.name :: (parameterChecks e.inputs ++ (parameterChecks e.outputs ++ [.body e.code]))

/-- The checks of a function: its name, its type and those of its parameters, its body. -/
def Function.checks (f : Function) : List Check :=
  .name f.name :: .type f.returnType :: (parameterChecks f.parameters ++ [.body f.code])

/-- All checks of a binary, in order. -/
def checks (b : Binary) : List Check :=
  b.entrypoints.flatMap Entrypoint.checks ++ b.functions.flatMap Function.checks

/-- Validation makes the checks in order. -/
theorem validate_eq_forM (b : Binary) : b.validate = b.checks.forM (Check.run b) := by
  have hentrypoint (e : Entrypoint) : e.checks.forM (Check.run b) = b.checkEntrypoint e := by
    simp only [Entrypoint.checks, parameterChecks, List.forM_eq_forM, List.forM_cons,
      List.forM_append, List.forM_map, List.forM_nil, bind_pure_unit]
    rfl
  have hfunction (f : Function) : f.checks.forM (Check.run b) = b.checkFunction f := by
    simp only [Function.checks, parameterChecks, List.forM_eq_forM, List.forM_cons,
      List.forM_append, List.forM_map, List.forM_nil, bind_pure_unit]
    rfl
  calc b.validate
      = (do
          (b.entrypoints.flatMap Entrypoint.checks).forM (Check.run b)
          (b.functions.flatMap Function.checks).forM (Check.run b)) := by
        simp only [forM_flatMap, hentrypoint, hfunction, validate]
    _ = b.checks.forM (Check.run b) := by
        simp only [checks, List.forM_eq_forM, List.forM_append]

theorem forall_mem_parameterChecks {b : Binary} {parameters : List Parameter} :
    (∀ c ∈ parameterChecks parameters, c.Holds b) ↔ ∀ p ∈ parameters, p.type.number.toNat < 9 :=
  List.forall_mem_map

theorem Entrypoint.forall_mem_checks {b : Binary} {e : Entrypoint} :
    (∀ c ∈ e.checks, c.Holds b) ↔ (Check.name e.name).Holds b ∧
      (∀ p ∈ e.inputs, p.type.number.toNat < 9) ∧ (∀ p ∈ e.outputs, p.type.number.toNat < 9) ∧
      (Check.body e.code).Holds b := by
  unfold checks
  rw [List.forall_mem_cons, List.forall_mem_append, List.forall_mem_append,
    forall_mem_parameterChecks, forall_mem_parameterChecks, List.forall_mem_singleton]

theorem Function.forall_mem_checks {b : Binary} {f : Function} :
    (∀ c ∈ f.checks, c.Holds b) ↔ (Check.name f.name).Holds b ∧ f.returnType.number.toNat < 9 ∧
      (∀ p ∈ f.parameters, p.type.number.toNat < 9) ∧ (Check.body f.code).Holds b := by
  unfold checks
  rw [List.forall_mem_cons, List.forall_mem_cons, List.forall_mem_append,
    forall_mem_parameterChecks, List.forall_mem_singleton]
  rfl

/-- **Validation is exact.**  A binary is accepted exactly if for every entrypoint and function the
range of the name covers UTF-8 in the string table, the numbers of all types are below nine, and the
range of the body covers words of the code that are instructions through and through, whose calls go to
functions of the binary.  It is refused with a fault exactly if in the order of the checks there is one
that fails with this fault, and all before it hold. -/
theorem validate_exact (b : Binary) :
    (b.validate = .ok () ↔
      (∀ e ∈ b.entrypoints, (Check.name e.name).Holds b ∧
        (∀ p ∈ e.inputs, p.type.number.toNat < 9) ∧ (∀ p ∈ e.outputs, p.type.number.toNat < 9) ∧
        (Check.body e.code).Holds b) ∧
      ∀ f ∈ b.functions, (Check.name f.name).Holds b ∧ f.returnType.number.toNat < 9 ∧
        (∀ p ∈ f.parameters, p.type.number.toNat < 9) ∧ (Check.body f.code).Holds b) ∧
    ∀ fault, b.validate = .error fault ↔
      ∃ before c after, b.checks = before ++ c :: after ∧ (∀ d ∈ before, d.Holds b) ∧
        c.Fails b fault := by
  rw [validate_eq_forM]
  constructor
  · rw [forM_eq_ok]
    simp only [Check.run_eq_ok_iff, checks, List.forall_mem_append, List.forall_mem_flatMap,
      Entrypoint.forall_mem_checks, Function.forall_mem_checks]
  · intro fault
    rw [forM_eq_error]
    simp only [Check.run_eq_ok_iff, Check.run_eq_error_iff]

/-- An entrypoint that calls a function, and the function with the given name. -/
def calledSample (name : Range) : Binary where
  entrypoints := [⟨.fragment, ⟨0, 3⟩, ⟨0, 2⟩, [⟨⟨8⟩, []⟩], []⟩]
  functions := [⟨⟨2, 1⟩, name, ⟨0⟩, [⟨⟨3⟩, [.input]⟩]⟩]
  strings := [0xc3, 0xa9, 0x66]
  code := [0x20003, 0, 0x10001]

/-- The name of the function may lie behind that of the entrypoint.  A range whose end exceeds 64 bits
does not lie in the table, and this is the first thing that is wrong. -/
theorem validate_exact_called :
    (calledSample ⟨2, 1⟩).validate = .ok () ∧
      (calledSample ⟨0xffffffffffffffff, 3⟩).validate =
        .error (.nameRange 0xffffffffffffffff 3 3) := by
  have hname : ∀ name, (Check.name ⟨0, 2⟩).Holds (calledSample name) :=
    fun _ => ⟨"é", [], [0x66], rfl, rfl, rfl⟩
  have hbody : ∀ name, (Check.body ⟨0, 3⟩).Holds (calledSample name) := by
    refine fun _ => ⟨[(.call, [0]), (.ret, [])], ⟨[], [], rfl, rfl, rfl⟩, by decide, ?_⟩
    intro index hindex
    obtain rfl : index = 0 := by simpa using hindex
    exact Nat.zero_lt_one
  have htype : ∀ p ∈ [Parameter.mk ⟨8⟩ []], p.type.number.toNat < 9 := by decide
  refine ⟨(validate_exact _).1.mpr ⟨?_, ?_⟩, ((validate_exact _).2 _).mpr ?_⟩
  · exact List.forall_mem_singleton.mpr ⟨hname _, htype, List.forall_mem_nil _, hbody _⟩
  · refine List.forall_mem_singleton.mpr ⟨⟨"f", [0xc3, 0xa9], [], rfl, rfl, rfl⟩, by decide,
      by decide, ⟨[(.ret, [])], ⟨[0x20003, 0], [], rfl, rfl, rfl⟩, by decide, ?_⟩⟩
    intro index hindex
    simp at hindex
  · refine ⟨[.name ⟨0, 2⟩, .type ⟨8⟩, .body ⟨0, 3⟩], _, _, rfl, ?_, .nameRange (by decide)⟩
    simp only [List.forall_mem_cons]
    exact ⟨hname _, Nat.lt_add_one 8, hbody _, List.forall_mem_nil _⟩

end Shading.Binary
