import Shading.Proofs.Lower.Sections

/-! # Bodies keep their meaning

The functions section of a lowered binary is made of one block for each function and one for each
entrypoint (`Transcript.functions_eq`).  Functions are declared before any is defined, so a block refers
to the signatures that were declared; in the end these are the signatures of the blocks themselves
(`lower_bodies`). -/

namespace Shading.Lower

open Spirv (Id Op Operand Section Instruction StorageClass)
open Binary (BuiltinType Parameter HasBody calls)

variable {b : Binary} {h : List Event} {options : Options}

/-! ### Blocks and bodies -/

/-- The block has the type of results, the parameters, the calls and the end of a body.  Of the calls,
those that would need arguments are left out, and the others are to functions with the given
signatures. -/
structure Renders (b : Binary) (globals : List Instruction) (signatures : List (Id × Id))
    (returns : BuiltinType) (parameters : List Parameter) (is : List Binary.Instruction)
    (k : Block) : Prop where
  returnType : Denotes globals k.returnType returns
  parameters : List.Forall₂ (fun p x => Passes globals p x.1) parameters k.parameters
  calls : List.Forall₂ (fun n c => signatures[n]? = some (c.type, c.target))
    ((calls is).filter b.takesNothing) k.calls
  terminator : k.terminator = terminator returns is

/-- The block renders the body in a code range, which is well-formed and calls what is there. -/
def RendersRange (b : Binary) (globals : List Instruction) (signatures : List (Id × Id))
    (returns : BuiltinType) (parameters : List Parameter) (range : Binary.Range) (k : Block) : Prop :=
  ∃ is, HasBody b range is ∧ (∀ n ∈ calls is, n < b.functions.length) ∧
    Renders b globals signatures returns parameters is k

theorem rendersRange_of_checkBody {b : Binary} {range : Binary.Range}
    (hrange : b.checkBody range = .ok ()) {globals : List Instruction}
    {signatures : List (Id × Id)} {returns : BuiltinType} {parameters : List Parameter} {k : Block}
    (h : Renders b globals signatures returns parameters
      (Binary.readInstructions ((b.words? range).getD [])).instructions k) :
    RendersRange b globals signatures returns parameters range k := by
  obtain ⟨is, hbody, hcalls⟩ := Binary.hasBody_of_checkBody hrange
  refine ⟨is, hbody, hcalls, ?_⟩
  obtain ⟨words, hwords, hread⟩ := hbody
  rw [hwords, Option.getD_some, hread] at h
  exact h

/-! ### Blocks in the module -/

/-- The block ends with a kill, with a return, or without a way to go on. -/
def Block.Closed (k : Block) : Prop := k.terminator ∈ [Op.kill, .ret, .unreachable]

theorem Rendered.closed {signatures : List (Id × Id)} {returns : BuiltinType}
    {parameters : List Parameter} {is : List Binary.Instruction} {k : Block}
    (hk : Rendered b h signatures returns parameters is k) : k.Closed := by
  rw [Block.Closed, hk.terminator, Lower.terminator]
  split
  · decide
  · split <;> decide

/-- All of a block is code. -/
theorem Block.Closed.isCode {k : Block} (hk : k.Closed) :
    ∀ i ∈ k.instructions, (home i.op == .functions) = true := by
  have hend : ∀ op ∈ [Op.kill, .ret, .unreachable], (home op == .functions) = true := by decide
  refine List.forall_mem_append.mpr ⟨List.forall_mem_append.mpr ⟨?_, ?_⟩, ?_⟩
  · exact List.forall_mem_cons.mpr ⟨rfl, List.forall_mem_map.mpr fun _ _ => rfl⟩
  · exact List.forall_mem_cons.mpr ⟨rfl, List.forall_mem_map.mpr fun _ _ => rfl⟩
  · exact List.forall_mem_cons.mpr ⟨hend _ hk, List.forall_mem_singleton.mpr rfl⟩

/-- What is recorded of an entrypoint is no code. -/
theorem Entry.not_isCode (e : Entry) : ∀ i ∈ e.records, (home i.op == .functions) = false := by
  have hslot : ∀ storage (x : Slot), ∀ i ∈ x.records storage, (home i.op == .functions) = false :=
    fun _ _ => List.forall_mem_cons.mpr ⟨rfl, List.forall_mem_singleton.mpr rfl⟩
  have hmodes : ∀ i ∈ modes e.kind e.head.id, (home i.op == .functions) = false := by
    intro i hi
    rw [op_of_mem_modes hi]
    rfl
  refine List.forall_mem_append.mpr ⟨List.forall_mem_append.mpr ⟨?_, ?_⟩,
    List.forall_mem_cons.mpr ⟨rfl, hmodes⟩⟩ <;>
  · rintro i hi
    obtain ⟨x, _, hi⟩ := List.mem_flatMap.mp hi
    exact hslot _ x i hi

/-- What is reserved was handed out, in the same order. -/
theorem reserved_sublist (h : List Event) : (summary h).reserved.Sublist (handed h) := by
  induction h with
  | nil => exact .refl _
  | cons e h ih =>
      have hevent : e.summary.reserved.Sublist (handed [e]) := by
        cases e with
        | reserve x => exact .refl _
        | _ => exact List.nil_sublist _
      rw [← List.singleton_append, summary_append, summary_singleton, handed_append]
      exact hevent.append ih

namespace Transcript

variable {functions : List (String × Block)} {entries : List (Entry × Block)}
  (ht : Transcript b h functions entries)
include ht

theorem closed : (∀ r ∈ functions, r.2.Closed) ∧ ∀ r ∈ entries, r.2.Closed := by
  refine ⟨fun r hr => ?_, fun r hr => ?_⟩
  · obtain ⟨f, _, hf⟩ := exists_mem_of_forall₂ ht.ofFunctions.flip hr
    exact (Defined.block hf).closed
  · obtain ⟨e, _, he⟩ := exists_mem_of_forall₂ ht.ofEntrypoints.flip hr
    exact (Recorded.block he).closed

/-- Unless ids run out, the functions section is made of the blocks. -/
theorem functions_eq (hids : (handed h).length < idLimit) (options : Options) :
    (after options h).output.functions.instructions.toList =
      (functions.map Prod.snd ++ entries.map Prod.snd).flatMap Block.instructions := by
  have hpushed := ht.valid.filter_pushes options (f := fun op => home op == .functions)
    fun op => by cases op <;> decide
  have hlog : (Lower.summary h).log.filter (fun i => home i.op == .functions) =
      (functions.map Prod.snd ++ entries.map Prod.snd).flatMap Block.instructions := by
    have hblock : ∀ {k : Block}, k.Closed →
        k.instructions.filter (fun i => home i.op == .functions) = k.instructions := fun hk =>
      List.filter_eq_self.mpr hk.isCode
    have hrecords : ∀ e : Entry, e.records.filter (fun i => home i.op == .functions) = [] := fun e =>
      List.filter_eq_nil_iff.mpr fun i hi => by simp [e.not_isCode i hi]
    rw [ht.summary, List.filter_append, List.filter_flatMap, List.filter_flatMap, List.flatMap_append,
      List.flatMap_map, List.flatMap_map]
    congr 1
    · exact List.flatMap_congr fun r hr => hblock (ht.closed.1 r hr)
    · refine List.flatMap_congr fun r hr => ?_
      rw [List.filter_append, hrecords, hblock (ht.closed.2 r hr), List.nil_append]
  have hsection := code_after options h .functions
  rw [← List.filter_filter] at hsection
  have hwritten : ∀ i ∈ (pushes options h).filter (fun i => home i.op == .functions),
      i.isWritable = true := by
    intro i hi
    obtain ⟨hi, hplace⟩ := List.mem_filter.mp hi
    refine ht.valid.isWritable_of_short hids hi fun hlong => ?_
    have hapart : ∀ op ∈ longOps, (home op == .functions) = false := by decide
    exact absurd hplace (by simp [hapart _ hlong])
  rw [List.filter_eq_self.mpr hwritten, hpushed, hlog] at hsection
  exact hsection

theorem nodup_ids (hids : (handed h).length < idLimit) :
    ((functions.map Prod.snd ++ entries.map Prod.snd).map Block.id).Nodup := by
  have hsublist := reserved_sublist h
  rw [ht.summary] at hsublist
  rw [List.map_append, List.map_map, List.map_map]
  exact (ht.valid.nodup_handed hids).sublist hsublist

theorem rendersRange (hids : (handed h).length < idLimit) {returns : BuiltinType}
    {parameters : List Parameter} {range : Binary.Range} {k : Block} {signatures : List (Id × Id)}
    (hrange : b.checkBody range = .ok ())
    (hk : Rendered b h signatures returns parameters (b.body range) k) :
    RendersRange b (globalsAfter options h) signatures returns parameters range k :=
  rendersRange_of_checkBody hrange
    ⟨ht.valid.denotes hids hk.returnType, hk.parameters.imp fun _ _ hp => ht.valid.passes hids hp,
      hk.calls, hk.terminator⟩

end Transcript

/-- **Bodies of a lowered binary.**  The words for a valid binary end with those of one block for each
function and one for each entrypoint, in order and with ids of their own, unless ids run out.  Each
block has the type of results, the parameters, the calls and the end of the body it comes from; a call
refers to the block of the function that is called, by its id and its type of results. -/
theorem lower_bodies (options : Options) (b : Binary) (hvalid : b.validate = .ok ())
    (hids : (build options b).output.issued < UInt32.size - 1) :
    let m := (build options b).output
    let globals := m.globals.instructions.toList
    ∃ functions entrypoints : List Block,
      m.functions.instructions.toList = (functions ++ entrypoints).flatMap Block.instructions ∧
      (lower options b).1 =
        m.header ++ m.preamble.words ++ m.sections.dropLast.flatMap Spirv.Code.words ++
          ((functions ++ entrypoints).flatMap Block.instructions).flatMap Instruction.words ∧
      ((functions ++ entrypoints).map Block.id).Nodup ∧
      List.Forall₂ (fun f k => ∃ returns, f.returnType.builtin? = some returns ∧
        RendersRange b globals (functions.map Block.signature) returns f.parameters f.code k)
        b.functions functions ∧
      List.Forall₂ (fun e k =>
        RendersRange b globals (functions.map Block.signature) .void [] e.code k)
        b.entrypoints entrypoints := by
  intro m globals
  obtain ⟨h, functions, entries, hbuild, ht⟩ := exists_transcript b
  have hm : m = (after options h).output := congrArg Progress.output (hbuild options)
  rw [hbuild options, issued_after] at hids
  have hglobals : globals = globalsAfter options h := by
    simp only [globals, hm]
    exact code_after options h .globals
  have hcode : m.functions.instructions.toList =
      (functions.map Prod.snd ++ entries.map Prod.snd).flatMap Block.instructions := by
    rw [hm]
    exact ht.functions_eq hids options
  have hsignatures : (functions.map fun r => r.2.signature) =
      (functions.map Prod.snd).map Block.signature := by rw [List.map_map]; rfl
  obtain ⟨hentrypoints, hfunctions⟩ := Binary.checkBody_of_validate hvalid
  refine ⟨functions.map Prod.snd, entries.map Prod.snd, hcode, ?_, ht.nodup_ids hids, ?_, ?_⟩
  · rw [← hcode, lower, hvalid]
    show m.header ++ m.preamble.words ++ m.sections.flatMap Spirv.Code.words = _
    simp [Spirv.Module.sections, Spirv.Code.words]
  · rw [← hsignatures, hglobals, List.forall₂_map_right_iff]
    refine ((List.forall₂_and_left _ _).mpr ⟨hfunctions, ht.ofFunctions⟩).imp ?_
    rintro f r ⟨⟨hbody, htype⟩, hr⟩
    obtain ⟨returns, hreturns⟩ := Binary.builtin?_of_checkType htype
    have hrendered := hr.block
    rw [resolve, hreturns] at hrendered
    exact ⟨returns, hreturns, ht.rendersRange hids hbody hrendered⟩
  · rw [← hsignatures, hglobals, List.forall₂_map_right_iff]
    refine ((List.forall₂_and_left _ _).mpr ⟨hentrypoints, ht.ofEntrypoints⟩).imp ?_
    rintro e r ⟨hbody, hr⟩
    exact ht.rendersRange hids hbody hr.block

/-- A function that calls one declared after it and, without its argument, another; a body that owes a
value; and an entrypoint whose code overlaps theirs. -/
def forwardSample : Binary where
  entrypoints := [⟨.fragment, ⟨0, 7⟩, ⟨0, 1⟩, [], []⟩]
  functions := [⟨⟨0, 5⟩, ⟨0, 1⟩, ⟨0⟩, []⟩, ⟨⟨5, 2⟩, ⟨1, 1⟩, ⟨4⟩, []⟩,
    ⟨⟨6, 1⟩, ⟨1, 1⟩, ⟨0⟩, [⟨⟨4⟩, [.both]⟩]⟩]
  strings := [0x6d, 0x66]
  code := [0x00020003, 1, 0x00020003, 2, 0x00010002, 0x00010000, 0x00010001]

theorem lower_bodies_forwardSample :
    forwardSample.validate = .ok () ∧ (build {} forwardSample).output.issued = 17 ∧
      (build {} forwardSample).output.functions.instructions.toList.map Instruction.op =
        [.function, .label, .functionCall, .kill, .functionEnd,
          .function, .label, .unreachable, .functionEnd,
          .function, .functionParameter, .label, .ret, .functionEnd,
          .function, .label, .functionCall, .kill, .functionEnd] ∧
      ∃ functions entrypoints : List Block, functions.length = 3 ∧ entrypoints.length = 1 ∧
        (build {} forwardSample).output.functions.instructions.toList =
          (functions ++ entrypoints).flatMap Block.instructions := by
  have hvalid : forwardSample.validate = .ok () := by decide +kernel
  have hissued : (build {} forwardSample).output.issued = 17 := by decide +kernel
  have hids : (build {} forwardSample).output.issued < UInt32.size - 1 := by
    rw [hissued]
    decide
  obtain ⟨functions, entrypoints, hcode, _, _, hfunctions, hentrypoints⟩ :=
    lower_bodies {} forwardSample hvalid hids
  refine ⟨hvalid, hissued, by decide +kernel, functions, entrypoints, ?_, ?_, hcode⟩
  · exact hfunctions.length_eq.symm
  · exact hentrypoints.length_eq.symm

end Shading.Lower
