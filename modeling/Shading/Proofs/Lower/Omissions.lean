import Mathlib.Data.List.Pairwise
import Shading.Proofs.Lower.Names
import Shading.Proofs.Token.Coverage

/-! # What a module leaves out

An instruction that is too long for its header is left out of a module, and nothing is reported.  Only
two kinds of instructions can be so long: the entry point of an entrypoint with a long name or a large
interface, and the declaration of a function type with many parameters.  Everything else that is
recorded of a binary is in its module, unless ids run out (`transpile_complete`). -/

namespace Shading.Lower

open Spirv (Id Op Operand Instruction)
open Binary (BuiltinType)

/-! ### Lengths -/

namespace Entry

theorem wordCount_instruction (e : Entry) :
    e.instruction.wordCount = 4 + e.name.utf8ByteSize / 4 + e.interface.length := by
  simp only [Entry.instruction, Instruction.wordCount, List.foldr_cons, List.foldr_nil,
    Operand.wordCount]
  omega

/-- Its entry point is not too long. -/
def fits (e : Entry) : Bool := e.instruction.wordCount < UInt16.size

theorem length_interface {b : Binary} {e : Binary.Entrypoint} {entry : Entry}
    (h : Describes b e entry) : entry.interface.length = e.inputs.length + e.outputs.length := by
  have hinputs := congrArg List.length h.inputs
  have houtputs := congrArg List.length h.outputs
  rw [List.length_map, List.length_range] at hinputs houtputs
  rw [Entry.interface, List.length_append, List.length_map, List.length_map, hinputs, houtputs]

/-- Whether an entry point is too long is known from the name and the interface. -/
theorem fits_iff {b : Binary} {e : Binary.Entrypoint} {entry : Entry} (h : Describes b e entry) :
    entry.fits = true ↔
      4 + (Text.utf8Bytes (nameOf b e.name)).length / 4 + (e.inputs.length + e.outputs.length) ≤
        65535 := by
  rw [fits, decide_eq_true_iff, wordCount_instruction, length_interface h, h.name,
    Scan.length_utf8Bytes, UInt16.size]
  omega

end Entry

theorem wordCount_typeDeclaration (x result : Id) (parameters : List Id) :
    (typeDeclaration x result parameters).wordCount = 3 + parameters.length := by
  simp only [typeDeclaration, Instruction.wordCount, List.foldr_cons, List.foldr_nil,
    Operand.wordCount]
  omega

/-! ### What is written -/

section

variable {b : Binary} {h : List Event} (hv : Valid b h) (hids : (handed h).length < idLimit)
include hv hids

/-- No two events hand out the same id. -/
theorem Valid.event_unique {e other : Event} {x : Id} (he : e ∈ h) (hother : other ∈ h)
    (hx : e.handed? = some x) (hx' : other.handed? = some x) : e = other := by
  by_contra hne
  have hpairwise := List.pairwise_filterMap.mp (hv.nodup_handed hids)
  have hsymm : Std.Symm fun e other : Event => ∀ y, e.handed? = some y →
      ∀ z, other.handed? = some z → y ≠ z := ⟨fun _ _ hab y hy z hz => (hab z hz y hy).symm⟩
  exact hpairwise.forall he hother hne x hx x hx' rfl

/-- The type of a function is declared exactly if it does not have too many parameters. -/
theorem Valid.declaration_iff (options : Options) {result x : Id} {parameters : List Id}
    (hx : Known h (.function result parameters) x) :
    (∃ r types, typeDeclaration x r types ∈ globalsAfter options h) ↔ parameters.length ≤ 65532 := by
  obtain ⟨op, operands, hmem⟩ := hx
  constructor
  · rintro ⟨r, types, hglobal⟩
    obtain ⟨hpushed, hwritable, _⟩ := mem_globalsAfter.mp hglobal
    have hlength := (hv.isWritable_iff hids hpushed).mp hwritable
    obtain ⟨k, y, others, hmem', hoperands, hdeclared⟩ := hv.event_of_isType hpushed rfl
    obtain ⟨hid, rfl⟩ := List.cons.inj hoperands
    obtain rfl := Operand.id.inj hid
    -- no other type has the id
    have hsame := hv.event_unique hids hmem hmem' rfl rfl
    cases hdeclared with
    | function =>
        obtain ⟨hkey, _⟩ := Event.type.inj hsame
        rw [wordCount_typeDeclaration, ← (TypeKey.function.inj hkey).2, UInt16.size] at hlength
        omega
  · intro hparameters
    obtain ⟨_, _, _, _, _, _, hdeclared⟩ := hv.allowed hmem
    obtain ⟨hpushed, hplace⟩ := hv.declaration_mem options hmem
    cases hdeclared with
    | function =>
        refine ⟨result, parameters, mem_globalsAfter.mpr ⟨hpushed, ?_, hplace⟩⟩
        refine (hv.isWritable_iff hids hpushed).mpr ?_
        show (typeDeclaration x result parameters).wordCount < _
        rw [wordCount_typeDeclaration, UInt16.size]
        omega

end

/-! ### The whole binary -/

/-- **What a module holds of a binary.**  If a binary is transpiled without an error and ids do not run
out, then the module has, in order, the header of a function for each function and each entrypoint, all
with ids of their own, and the variables with their locations for the inputs and outputs of each
entrypoint.  It has one entry point for each entrypoint, with the id of its function and the ids of all
its variables, except for those that would have more than 65535 words.  The type of a function is
declared among the globals except for functions with more than 65532 parameters. -/
theorem transpile_complete (options : Options) (file : Nat) (b : Binary)
    (hok : (transpileBinary options file b).errored = false)
    (hids : (build options b).output.issued < UInt32.size - 1) :
    let is := (build options b).output.instructions
    let globals := (build options b).output.globals.instructions.toList
    Spirv.splitWords ((transpileBinary options file b).value.drop 5) = some (is.map Instruction.words) ∧
      ∃ functions entries,
        having .entryPoint is = (entries.filter Entry.fits).map Entry.instruction ∧
        having .var is = entries.flatMap Entry.declarations ∧
        having .decorate is = entries.flatMap Entry.decorations ∧
        having .function is = functions.map (fun f => f.head.instruction) ++
          entries.map (fun e => e.head.instruction) ∧
        (functions.map (fun f => f.head.id) ++ entries.map (fun e => e.head.id)).Nodup ∧
        List.Forall₂ (fun e entry => Describes b e entry ∧
          (∃ bytes, b.nameBytes? e.name = some bytes ∧ (entry.fits = true ↔
            4 + bytes.length / 4 + (e.inputs.length + e.outputs.length) ≤ 65535)) ∧
          ∃ r types, typeDeclaration entry.head.type r types ∈ globals) b.entrypoints entries ∧
        List.Forall₂ (fun f entry => DescribesFunction b f entry ∧
          ((∃ r types, typeDeclaration entry.head.type r types ∈ globals) ↔
            f.parameters.length ≤ 65532)) b.functions functions := by
  intro is globals
  obtain ⟨hvalid, _, _⟩ := accepted_of_transpile hok
  obtain ⟨hwords, h, functions, entries, hbuild, ht, hofFunctions, hofEntrypoints⟩ :=
    transcript_of_transpile hok
  have his : is = (after options h).output.instructions :=
    congrArg (fun p => Progress.output p |>.instructions) hbuild
  have hglobals : globals = globalsAfter options h := by
    simp only [globals, hbuild]
    exact code_after options h .globals
  rw [hbuild, issued_after] at hids
  refine ⟨hwords, functions.map .ofBlock, entries.map Prod.fst, ?_, ?_, ?_, ?_, ?_, ?_, ?_⟩
  · rw [his, ht.valid.having_short hids options (by decide), ht.having_entryPoint, List.filter_map]
    rfl
  · rw [his, ht.valid.having_all hids options (by decide) (by decide), ht.having_var]
  · rw [his, ht.valid.having_all hids options (by decide) (by decide), ht.having_decorate]
  · rw [his, ht.valid.having_all hids options (by decide) (by decide), ht.having_function]
  · have hheads : (entries.map Prod.fst).map (fun e => e.head.id) = entries.map fun r => r.2.id := by
      rw [List.map_map]
      exact List.map_congr_left fun r hr => congrArg Head.id (ht.head_eq r hr)
    have hnodup := ht.nodup_ids hids
    rw [List.map_append, List.map_map, List.map_map] at hnodup
    rw [hheads, List.map_map]
    exact hnodup
  · have hchecked := (List.forall₂_and_left _ _).mpr ⟨(checkName_of_validate hvalid).1, ht.ofEntrypoints⟩
    rw [hglobals, List.forall₂_map_right_iff]
    refine List.Forall₂.mp (fun e r hdescribes hr => ?_) (List.forall₂_map_right_iff.mp hofEntrypoints)
      hchecked
    obtain ⟨hname, hrecorded⟩ := hr
    refine ⟨hdescribes, ⟨_, nameBytes?_of_checkName hname, Entry.fits_iff hdescribes⟩, ?_⟩
    have hparameters := hdescribes.parameters
    rw [hrecorded.head] at hparameters ⊢
    refine (ht.valid.declaration_iff hids options hrecorded.block.type).mpr ?_
    show r.2.head.parameters.length ≤ 65532
    rw [hparameters]
    exact Nat.zero_le _
  · rw [hglobals, List.forall₂_map_right_iff]
    refine List.Forall₂.mp (fun f r hdescribes hr => ⟨hdescribes, ?_⟩)
      (List.forall₂_map_right_iff.mp hofFunctions) ht.ofFunctions
    rw [← hdescribes.parameters]
    exact ht.valid.declaration_iff hids options hr.block.type

/-- Two stages with interfaces, the first of which calls a function that calls another, and one with
parameters that nothing calls. -/
def stagesSample : Binary where
  entrypoints := [⟨.vertex, ⟨0, 3⟩, ⟨0, 2⟩, [⟨⟨7⟩, []⟩, ⟨⟨4⟩, []⟩], [⟨⟨7⟩, []⟩]⟩,
    ⟨.fragment, ⟨3, 1⟩, ⟨1, 1⟩, [], [⟨⟨7⟩, []⟩]⟩]
  functions := [⟨⟨0, 3⟩, ⟨2, 1⟩, ⟨0⟩, []⟩, ⟨⟨2, 1⟩, ⟨2, 0⟩, ⟨0⟩, []⟩,
    ⟨⟨2, 1⟩, ⟨0, 3⟩, ⟨0⟩, [⟨⟨4⟩, []⟩, ⟨⟨7⟩, [.both]⟩]⟩]
  strings := [0x76, 0x73, 0x66]
  code := [0x00020003, 1, 0x00010001, 0x00010002]

theorem transpile_complete_stagesSample :
    (transpileBinary {} 0 stagesSample).errored = false ∧
      (build {} stagesSample).output.issued = 27 ∧
      ∃ (functions : List FunctionEntry) (vertex fragment : Entry), functions.length = 3 ∧
        vertex.interface.length = 3 ∧ fragment.interface.length = 1 ∧
        having .entryPoint (build {} stagesSample).output.instructions =
          [vertex.instruction, fragment.instruction] ∧
        having .function (build {} stagesSample).output.instructions =
          functions.map (fun f => f.head.instruction) ++
            [vertex.head.instruction, fragment.head.instruction] ∧
        (functions.map (fun f => f.head.id) ++ [vertex.head.id, fragment.head.id]).Nodup := by
  have hok : (transpileBinary {} 0 stagesSample).errored = false := by decide +kernel
  have hissued : (build {} stagesSample).output.issued = 27 := by decide +kernel
  obtain ⟨_, functions, entries, hpoints, _, _, hheaders, hnodup, hentries, hfunctions⟩ :=
    transpile_complete {} 0 stagesSample hok (by rw [hissued]; decide)
  cases hentries with
  | @cons _ vertex _ _ hvertex hrest =>
    cases hrest with
    | @cons _ fragment _ _ hfragment hrest =>
      cases hrest
      obtain ⟨hvertex, ⟨bytes, hbytes, hfits⟩, _⟩ := hvertex
      obtain ⟨hfragment, ⟨bytes', hbytes', hfits'⟩, _⟩ := hfragment
      obtain rfl : [0x76, 0x73] = bytes := Option.some.inj hbytes
      obtain rfl : [0x73] = bytes' := Option.some.inj hbytes'
      rw [List.filter_cons_of_pos (hfits.mpr (by decide)),
        List.filter_cons_of_pos (hfits'.mpr (by decide)), List.filter_nil] at hpoints
      exact ⟨hok, hissued, functions, vertex, fragment, hfunctions.length_eq.symm,
        Entry.length_interface hvertex, Entry.length_interface hfragment, hpoints, hheaders, hnodup⟩

/-! ### A name that is too long -/

/-- Letters are a name. -/
theorem ofUtf8?_letters (n : Nat) :
    Text.ofUtf8? (List.replicate n 0x61) = some (String.ofList (List.replicate n 'a')) := by
  have hbytes : Text.utf8Bytes (String.ofList (List.replicate n 'a')) = List.replicate n 0x61 := by
    rw [Scan.utf8Bytes_eq_encoded, String.toList_ofList, Scan.encoded]
    induction n with
    | zero => rfl
    | succ n ih =>
        rw [List.replicate_succ, List.flatMap_cons, ih]
        rfl
  rw [← hbytes, Text.ofUtf8?_utf8Bytes]

/-- A vertex stage whose name has as many letters. -/
def lettersSample (n : Nat) : Binary where
  entrypoints := [⟨.vertex, ⟨0, 1⟩, ⟨0, n.toUInt64⟩, [], []⟩]
  strings := List.replicate n 0x61
  code := [0x00010001]

theorem nameBytes?_lettersSample {n : Nat} (hn : n < UInt64.size) :
    (lettersSample n).nameBytes? ⟨0, n.toUInt64⟩ = some (List.replicate n 0x61) := by
  have hcount : n.toUInt64.toNat = n := Nat.mod_eq_of_lt hn
  simp [Binary.nameBytes?, Binary.Range.slice?, lettersSample, hcount]

theorem errored_lettersSample {n : Nat} (hn : n < UInt64.size) (options : Options) (file : Nat) :
    (transpileBinary options file (lettersSample n)).errored = false := by
  have hname : (lettersSample n).checkName ⟨0, n.toUInt64⟩ = .ok () := by
    simp only [Binary.checkName, nameBytes?_lettersSample hn, ofUtf8?_letters]
  -- the body does not depend on the name
  have hcheck : (lettersSample n).checkBody ⟨0, 1⟩ = .ok () := by
    show (lettersSample 0).checkBody ⟨0, 1⟩ = .ok ()
    decide +kernel
  have hbody : (lettersSample n).body ⟨0, 1⟩ = [⟨0, .ret, []⟩] := by
    show (lettersSample 0).body ⟨0, 1⟩ = _
    decide +kernel
  have hvalid : (lettersSample n).validate = .ok () := by
    refine bind_eq_ok.mpr ⟨(), forM_eq_ok.mpr (List.forall_mem_singleton.mpr ?_), rfl⟩
    exact bind_eq_ok.mpr ⟨(), hname, bind_eq_ok.mpr ⟨(), rfl,
      bind_eq_ok.mpr ⟨(), rfl, hcheck⟩⟩⟩
  have hproblems : (build options (lettersSample n)).problems = [] := by
    rw [problems_build]
    show entrypointProblems (lettersSample n) ⟨.vertex, ⟨0, 1⟩, ⟨0, n.toUInt64⟩, [], []⟩ ++ [] = []
    rw [List.append_nil, entrypointProblems, hbody]
    rfl
  rw [errored_eq_false_iff, ← hasError_problems_build options hvalid, hproblems]
  rintro ⟨problem, hmem, _⟩
  cases hmem

/-- A name with too many letters: its entrypoint has no entry point, and nothing is reported. -/
theorem lettersSample_dropped :
    (transpileBinary {} 0 (lettersSample 262128)).errored = false ∧
      (lettersSample 262128).entrypoints.length = 1 ∧
      having .entryPoint (build {} (lettersSample 262128)).output.instructions = [] := by
  have hn : 262128 < UInt64.size := by decide
  have hok := errored_lettersSample hn {} 0
  obtain ⟨hvalid, _, _⟩ := accepted_of_transpile hok
  obtain ⟨_, h, functions, entries, hbuild, ht, _, hentries⟩ := transcript_of_transpile hok
  have hname := nameBytes?_of_checkName ((checkName_of_validate hvalid).1 _ List.mem_cons_self)
  have hbytes := Option.some.inj ((nameBytes?_lettersSample hn).symm.trans hname)
  obtain ⟨entry, rest, hentry, hrest, hfst⟩ := List.forall₂_cons_left_iff.mp hentries
  obtain rfl := List.forall₂_nil_left_iff.mp hrest
  have hlong : entry.fits = false := by
    rw [← Bool.not_eq_true, Entry.fits_iff hentry, ← hbytes, List.length_replicate]
    decide
  have hleft : entry.instruction.isWritable = false := by
    rw [Instruction.isWritable]
    exact Bool.and_eq_false_imp.mpr fun _ => hlong
  refine ⟨hok, rfl, ?_⟩
  rw [hbuild, having_instructions (by decide), ht.having_entryPoint, hfst, List.map_singleton,
    List.filter_cons_of_neg, List.filter_nil]
  rw [hleft]
  exact Bool.false_ne_true

end Shading.Lower
