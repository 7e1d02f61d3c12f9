import Mathlib.Data.List.Induction
import Shading.Proofs.Binary.Validation

/-! # Building binaries

A binary is built by additions, each of which puts something at the ends of the tables.  A range that
resolves goes on to do so, with the same result (`Resolves.add`), and the ranges of a record that is
added resolve to the name and the body it is added with (`resolves_add`).  By induction on the
additions, the records of the binary correspond to them, one to one and in order (`records_built`).

Calls may go to functions that are added later.  They are checked only against the functions of the
finished binary, which is valid if the additions are in order (`built_valid`). -/

namespace Shading.Binary

/-! ### Ranges of tables that grow -/

namespace Range

variable {α : Type} {table part : List α}

theorem slice?_append {r : Range} (h : r.slice? table = some part) (more : List α) :
    r.slice? (table ++ more) = some part := by
  obtain ⟨front, back, rfl, hfront, hpart⟩ := slice?_eq_some_iff.mp h
  apply slice?_eq_some_iff.mpr
  refine ⟨front, back ++ more, ?_, hfront, hpart⟩
  simp only [List.append_assoc]

/-- What is put at the end of a table is covered by the range made for it. -/
theorem slice?_last (h : (table ++ part).length < UInt64.size) :
    slice? ⟨table.length.toUInt64, part.length.toUInt64⟩ (table ++ part) = some part := by
  have hsize : UInt64.size = 18446744073709551616 := rfl
  rw [List.length_append, hsize] at h
  have hoffset : table.length.toUInt64.toNat = table.length := Nat.mod_eq_of_lt (by omega)
  have hlength : part.length.toUInt64.toNat = part.length := Nat.mod_eq_of_lt (by omega)
  apply slice?_eq_some_iff.mpr
  exact ⟨table, [], (List.append_nil _).symm, hoffset.symm, hlength.symm⟩

end Range

/-! ### Additions -/

/-- What a function is added with. -/
structure Function.Source where
  name : String
  returnType : TypeId
  parameters : List Parameter
  body : List UInt32
deriving DecidableEq

/-- What an entrypoint is added with. -/
structure Entrypoint.Source where
  kind : EntrypointKind
  name : String
  inputs : List Parameter
  outputs : List Parameter
  body : List UInt32
deriving DecidableEq

/-- One step in building a binary.  Names and code may also be added without a record. -/
inductive Addition where
  | name (text : String)
  | code (words : List UInt32)
  | function (source : Function.Source)
  | entrypoint (source : Entrypoint.Source)
deriving DecidableEq

namespace Addition

def function? : Addition → Option Function.Source
  | function source => some source
  | _ => none

def entrypoint? : Addition → Option Entrypoint.Source
  | entrypoint source => some source
  | _ => none

/-- What is put at the end of the string table. -/
def bytes : Addition → List UInt8
  | name text => Text.utf8Bytes text
  | code _ => []
  | function source => Text.utf8Bytes source.name
  | entrypoint source => Text.utf8Bytes source.name

/-- What is put at the end of the code. -/
def words : Addition → List UInt32
  | name _ => []
  | code words => words
  | function source => source.body
  | entrypoint source => source.body

end Addition

def add (b : Binary) : Addition → Binary
  | .name text => (b.addName text).1
  | .code words => (b.addCode words).1
  | .function s => (b.addFunction s.name s.returnType s.parameters s.body).1
  | .entrypoint s => b.addEntrypoint s.kind s.name s.inputs s.outputs s.body

/-- The binary that additions make of the empty one. -/
def built (additions : List Addition) : Binary := additions.foldl add {}

theorem strings_add (b : Binary) (a : Addition) : (b.add a).strings = b.strings ++ a.bytes := by
  cases a with
  | code words => exact (List.append_nil _).symm
  | name | function | entrypoint => rfl

theorem code_add (b : Binary) (a : Addition) : (b.add a).code = b.code ++ a.words := by
  cases a with
  | name text => exact (List.append_nil _).symm
  | code | function | entrypoint => rfl

theorem built_concat (additions : List Addition) (a : Addition) :
    built (additions ++ [a]) = (built additions).add a := List.foldl_concat ..

/-! ### Records and what they were added with -/

/-- The ranges of a record resolve to this name and this body. -/
structure Resolves (b : Binary) (nameRange codeRange : Range) (text : String)
    (words : List UInt32) : Prop where
  name : b.name? nameRange = some text
  body : b.words? codeRange = some words

/-- Nothing that is added changes what ranges resolve to. -/
theorem Resolves.add {b : Binary} {nameRange codeRange : Range} {text : String} {words : List UInt32}
    (h : b.Resolves nameRange codeRange text words) (a : Addition) :
    (b.add a).Resolves nameRange codeRange text words where
  name := by
    obtain ⟨bytes, hbytes, htext⟩ := Option.bind_eq_some_iff.mp h.name
    apply Option.bind_eq_some_iff.mpr
    refine ⟨bytes, ?_, htext⟩
    unfold nameBytes?
    rw [strings_add]
    exact Range.slice?_append hbytes _
  body := by
    unfold words?
    rw [code_add]
    exact Range.slice?_append h.body _

/-- The ranges made for a new record resolve to what it is added with. -/
theorem resolves_add {b : Binary} {a : Addition} {text : String}
    (hbytes : a.bytes = Text.utf8Bytes text) (hstrings : (b.add a).strings.length < UInt64.size)
    (hcode : (b.add a).code.length < UInt64.size) :
    (b.add a).Resolves ⟨b.strings.length.toUInt64, a.bytes.length.toUInt64⟩
      ⟨b.code.length.toUInt64, a.words.length.toUInt64⟩ text a.words where
  name := by
    rw [strings_add] at hstrings
    apply Option.bind_eq_some_iff.mpr
    refine ⟨a.bytes, ?_, ?_⟩
    · unfold nameBytes?
      rw [strings_add]
      exact Range.slice?_last hstrings
    · rw [hbytes]
      exact Text.ofUtf8?_utf8Bytes text
  body := by
    unfold words?
    rw [code_add] at hcode ⊢
    exact Range.slice?_last hcode

/-- The record has, or resolves to, all that the function was added with. -/
structure Function.StandsFor (b : Binary) (f : Function) (s : Function.Source) : Prop where
  resolves : b.Resolves f.name f.code s.name s.body
  returnType : f.returnType = s.returnType
  parameters : f.parameters = s.parameters

/-- The record has, or resolves to, all that the entrypoint was added with. -/
structure Entrypoint.StandsFor (b : Binary) (e : Entrypoint) (s : Entrypoint.Source) : Prop where
  resolves : b.Resolves e.name e.code s.name s.body
  kind : e.kind = s.kind
  inputs : e.inputs = s.inputs
  outputs : e.outputs = s.outputs

/-- The records are those of the additions, in order. -/
structure Records (b : Binary) (additions : List Addition) : Prop where
  functions : List.Forall₂ (Function.StandsFor b) b.functions (additions.filterMap Addition.function?)
  entrypoints :
    List.Forall₂ (Entrypoint.StandsFor b) b.entrypoints (additions.filterMap Addition.entrypoint?)

/-- A record that is added comes last, and the others stand for what they stood for. -/
theorem Records.add {b : Binary} {additions : List Addition} (h : b.Records additions) (a : Addition)
    (hstrings : (b.add a).strings.length < UInt64.size)
    (hcode : (b.add a).code.length < UInt64.size) : (b.add a).Records (additions ++ [a]) := by
  -- an addition only appends to the strings and the code, so old ranges still resolve
  have hfunctions : List.Forall₂ (Function.StandsFor (b.add a)) b.functions
      (additions.filterMap Addition.function?) :=
    h.functions.imp fun f s hf => ⟨hf.resolves.add a, hf.returnType, hf.parameters⟩
  have hentrypoints : List.Forall₂ (Entrypoint.StandsFor (b.add a)) b.entrypoints
      (additions.filterMap Addition.entrypoint?) :=
    h.entrypoints.imp fun e s he => ⟨he.resolves.add a, he.kind, he.inputs, he.outputs⟩
  constructor
  · rw [List.filterMap_append]
    cases a with
    | function s =>
        apply List.rel_append hfunctions
        exact .cons ⟨resolves_add rfl hstrings hcode, rfl, rfl⟩ .nil
    | name | code | entrypoint =>
        change List.Forall₂ _ b.functions (_ ++ [])
        rw [List.append_nil]
        exact hfunctions
  · rw [List.filterMap_append]
    cases a with
    | entrypoint s =>
        apply List.rel_append hentrypoints
        exact .cons ⟨resolves_add rfl hstrings hcode, rfl, rfl, rfl⟩ .nil
    | name | code | function =>
        change List.Forall₂ _ b.entrypoints (_ ++ [])
        rw [List.append_nil]
        exact hentrypoints

theorem records_built {additions : List Addition}
    (hstrings : (built additions).strings.length < UInt64.size)
    (hcode : (built additions).code.length < UInt64.size) : (built additions).Records additions := by
  induction additions using List.reverseRecOn with
  | nil => exact ⟨.nil, .nil⟩
  | append_singleton additions a ih =>
      rw [built_concat] at hstrings hcode ⊢
      refine Records.add (ih ?_ ?_) a hstrings hcode
      · rw [strings_add, List.length_append] at hstrings
        omega
      · rw [code_add, List.length_append] at hcode
        omega

/-! ### Validity -/

theorem validate_eq_ok_iff {b : Binary} : b.validate = .ok () ↔ ∀ c ∈ b.checks, c.Holds b := by
  rw [validate_eq_forM, forM_eq_ok]
  simp only [Check.run_eq_ok_iff]

/-- The words are pushed instructions with as many operands as they take, and calls go to one of
`functions` functions. -/
def IsBody (functions : Nat) (words : List UInt32) : Prop :=
  ∃ is, words = written is ∧ (∀ i ∈ is, i.Fits) ∧ CallsWithin functions is

/-- The body that calls functions in order and returns. -/
theorem isBody_callBody {functions : Nat} {callees : List UInt32}
    (h : ∀ callee ∈ callees, callee.toNat < functions) : IsBody functions (callBody callees) := by
  refine ⟨callees.map (fun callee => (.call, [callee])) ++ [(.ret, [])], ?_, ?_, ?_⟩
  · simp [callBody, written, List.flatMap_map]
  · rw [List.forall_mem_append, List.forall_mem_map, List.forall_mem_singleton]
    exact ⟨fun callee _ => rfl, rfl⟩
  · intro index hindex
    apply h
    simpa using hindex

/-- The types are builtin, and the body is one for a binary with this number of functions. -/
def Addition.InOrder (functions : Nat) : Addition → Prop
  | name _ | code _ => True
  | function s => s.returnType.builtin?.isSome ∧
      (∀ p ∈ s.parameters, p.type.builtin?.isSome) ∧ IsBody functions s.body
  | entrypoint s => (∀ p ∈ s.inputs, p.type.builtin?.isSome) ∧
      (∀ p ∈ s.outputs, p.type.builtin?.isSome) ∧ IsBody functions s.body

theorem TypeId.isSome_builtin? {t : TypeId} : t.builtin?.isSome ↔ t.number.toNat < 9 := by
  simp [builtin?, Named.all]

theorem Resolves.holds_name {b : Binary} {nameRange codeRange : Range} {text : String}
    {words : List UInt32} (h : b.Resolves nameRange codeRange text words) :
    (Check.name nameRange).Holds b := by
  obtain ⟨bytes, hbytes, htext⟩ := Option.bind_eq_some_iff.mp h.name
  refine ⟨text, Range.slice?_eq_some_iff.mp ?_⟩
  rw [Text.utf8Bytes_ofUtf8? htext]
  exact hbytes

theorem Resolves.holds_body {b : Binary} {nameRange codeRange : Range} {text : String}
    {words : List UInt32} (h : b.Resolves nameRange codeRange text words)
    (hwords : IsBody b.functions.length words) : (Check.body codeRange).Holds b := by
  obtain ⟨is, rfl, hfits, hcalls⟩ := hwords
  exact ⟨is, Range.slice?_eq_some_iff.mp h.body, hfits, hcalls⟩

/-- If the records are those of additions that are in order, all checks hold. -/
theorem Records.validate {b : Binary} {additions : List Addition} (h : b.Records additions)
    (horder : ∀ a ∈ additions, a.InOrder b.functions.length) : b.validate = .ok () := by
  apply validate_eq_ok_iff.mpr
  unfold checks
  rw [List.forall_mem_append, List.forall_mem_flatMap, List.forall_mem_flatMap]
  constructor
  · intro e he
    obtain ⟨s, hs, hstands⟩ := exists_mem_of_forall₂ h.entrypoints he
    obtain ⟨a, ha, hsource⟩ := List.mem_filterMap.mp hs
    cases a with
    | entrypoint source =>
        cases hsource
        obtain ⟨hinputs, houtputs, hbody⟩ := horder _ ha
        refine Entrypoint.forall_mem_checks.mpr ⟨hstands.resolves.holds_name, ?_, ?_, ?_⟩
        · intro p hp
          rw [hstands.inputs] at hp
          exact TypeId.isSome_builtin?.mp (hinputs p hp)
        · intro p hp
          rw [hstands.outputs] at hp
          exact TypeId.isSome_builtin?.mp (houtputs p hp)
        · exact hstands.resolves.holds_body hbody
    | name | code | function => cases hsource
  · intro f hf
    obtain ⟨s, hs, hstands⟩ := exists_mem_of_forall₂ h.functions hf
    obtain ⟨a, ha, hsource⟩ := List.mem_filterMap.mp hs
    cases a with
    | function source =>
        cases hsource
        obtain ⟨htype, hparameters, hbody⟩ := horder _ ha
        refine Function.forall_mem_checks.mpr ⟨hstands.resolves.holds_name, ?_, ?_, ?_⟩
        · rw [hstands.returnType]
          exact TypeId.isSome_builtin?.mp htype
        · intro p hp
          rw [hstands.parameters] at hp
          exact TypeId.isSome_builtin?.mp (hparameters p hp)
        · exact hstands.resolves.holds_body hbody
    | name | code | entrypoint => cases hsource

/-! ### Numbers of functions -/

theorem length_functions_built (additions : List Addition) :
    (built additions).functions.length = (additions.filterMap Addition.function?).length := by
  induction additions using List.reverseRecOn with
  | nil => rfl
  | append_singleton additions a ih =>
      rw [built_concat, List.filterMap_append, List.length_append, ← ih]
      cases a with
      | function s => exact List.length_append
      | name | code | entrypoint => rfl

/-- The number that is returned for a function stays its number. -/
theorem Records.number {before after : List Addition} {s : Function.Source}
    (h : (built (before ++ .function s :: after)).Records (before ++ .function s :: after)) :
    ∃ f, (built (before ++ .function s :: after)).functions[
        ((built before).addFunction s.name s.returnType s.parameters s.body).2]? = some f ∧
      f.StandsFor (built (before ++ .function s :: after)) s := by
  have hnumber : ((built before).addFunction s.name s.returnType s.parameters s.body).2 =
      (before.filterMap Addition.function?).length := length_functions_built before
  have hsources : (before ++ .function s :: after).filterMap Addition.function? =
      before.filterMap Addition.function? ++ s :: after.filterMap Addition.function? := by
    rw [List.filterMap_append]
    rfl
  have hfunctions := h.functions
  rw [hsources] at hfunctions
  have hlt : (before.filterMap Addition.function?).length <
      (built (before ++ .function s :: after)).functions.length := by
    rw [hfunctions.length_eq, List.length_append, List.length_cons]
    omega
  rw [hnumber]
  refine ⟨_, List.getElem?_eq_getElem hlt, ?_⟩
  have hstands := hfunctions.get hlt (by rw [← hfunctions.length_eq]; exact hlt)
  rw [List.get_eq_getElem, List.get_eq_getElem, List.getElem_append_right (Nat.le_refl _)] at hstands
  simpa using hstands

/-- **What is built is valid.**  Additions are made one after the other, from the empty binary on.  If
all their types are builtin and all their bodies are pushed instructions with as many operands as these
take, calls going to functions of the finished binary, then this binary is valid.  Its records are those
of the additions, in order: their ranges resolve to the name and the body that each was added with, and
the number returned for a function is the place of its record.  The tables have no more places than can
be counted in 64 bits. -/
theorem built_valid (additions : List Addition)
    (hstrings : (built additions).strings.length < UInt64.size)
    (hcode : (built additions).code.length < UInt64.size)
    (horder : ∀ a ∈ additions, a.InOrder (built additions).functions.length) :
    (built additions).validate = .ok () ∧
    List.Forall₂ (Function.StandsFor (built additions)) (built additions).functions
      (additions.filterMap Addition.function?) ∧
    List.Forall₂ (Entrypoint.StandsFor (built additions)) (built additions).entrypoints
      (additions.filterMap Addition.entrypoint?) ∧
    ∀ before s after, additions = before ++ .function s :: after →
      ∃ f, (built additions).functions[
          ((built before).addFunction s.name s.returnType s.parameters s.body).2]? = some f ∧
        f.StandsFor (built additions) s := by
  have hrecords := records_built hstrings hcode
  refine ⟨hrecords.validate horder, hrecords.functions, hrecords.entrypoints, ?_⟩
  rintro before s after rfl
  exact hrecords.number

/-- A function calls the one after it, and an entrypoint both.  A name and code of no record stand
between them. -/
def interleavedSample : List Addition :=
  [.function ⟨"f", ⟨0⟩, [], callBody [1]⟩, .name "ü", .code [7],
    .entrypoint ⟨.vertex, "main", [⟨⟨7⟩, []⟩], [], callBody [0, 1]⟩,
    .function ⟨"g", ⟨4⟩, [⟨⟨8⟩, [.both]⟩], callBody []⟩]

theorem built_valid_interleavedSample :
    (built interleavedSample).validate = .ok () ∧
      List.Forall₂ (Function.StandsFor (built interleavedSample)) (built interleavedSample).functions
        [⟨"f", ⟨0⟩, [], callBody [1]⟩, ⟨"g", ⟨4⟩, [⟨⟨8⟩, [.both]⟩], callBody []⟩] ∧
      List.Forall₂ (Entrypoint.StandsFor (built interleavedSample))
        (built interleavedSample).entrypoints
        [⟨.vertex, "main", [⟨⟨7⟩, []⟩], [], callBody [0, 1]⟩] := by
  have horder : ∀ a ∈ interleavedSample, a.InOrder (built interleavedSample).functions.length := by
    have hfunctions : (built interleavedSample).functions.length = 2 := rfl
    rw [hfunctions]
    simp only [interleavedSample, List.forall_mem_cons, Addition.InOrder]
    exact ⟨⟨rfl, by simp, isBody_callBody (by simp)⟩, trivial, trivial,
      ⟨by simp [TypeId.isSome_builtin?], by simp, isBody_callBody (by simp)⟩,
      ⟨rfl, by simp [TypeId.isSome_builtin?], isBody_callBody (by simp)⟩, List.forall_mem_nil _⟩
  obtain ⟨hvalid, hfunctions, hentrypoints, _⟩ :=
    built_valid interleavedSample (by decide +kernel) (by decide +kernel) horder
  exact ⟨hvalid, hfunctions, hentrypoints⟩

end Shading.Binary
