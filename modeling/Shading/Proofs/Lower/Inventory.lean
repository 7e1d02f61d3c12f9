import Shading.Proofs.Lower.Bodies
import Shading.Proofs.Lower.Reports

/-! # What a module records of its functions and entrypoints

What is recorded of a binary is known from its history: a name if names are kept, the variables of an
interface with their locations, an entry point and the header of a function.  The instructions of each
kind in the module are those of the records that can be written (`having_instructions`), and a binary
that is transpiled without an error has an entry for each function and each entrypoint
(`transcript_of_transpile`). -/

namespace Shading.Lower

open Spirv (Id Op Operand Section Instruction StorageClass)
open Binary (BuiltinType EntrypointKind Parameter)

variable {b : Binary} {h : List Event} {options : Options}

/-! ### Entries -/

/-- A block with its name, as it is recorded. -/
def FunctionEntry.ofBlock (r : String × Block) : FunctionEntry := ⟨r.1, r.2.head⟩

/-- The entry stands for the function: it has its name, and as many parameters. -/
structure DescribesFunction (b : Binary) (f : Binary.Function) (entry : FunctionEntry) : Prop where
  name : entry.name = nameOf b f.name
  parameters : entry.head.parameters.length = f.parameters.length

/-- The entry stands for the entrypoint: it has its kind and its name, and a variable for each input
and each output, in order. -/
structure Describes (b : Binary) (e : Binary.Entrypoint) (entry : Entry) : Prop where
  kind : entry.kind = e.kind
  name : entry.name = nameOf b e.name
  inputs : entry.inputs.map Slot.location = List.range e.inputs.length
  outputs : entry.outputs.map Slot.location = List.range e.outputs.length
  parameters : entry.head.parameters = []

theorem Defined.describes {signatures : List (Id × Id)} {f : Binary.Function} {r : String × Block}
    (hr : Defined b h signatures f r) : DescribesFunction b f (.ofBlock r) := by
  refine ⟨hr.name, ?_⟩
  rw [hr.block.parameters.length_eq]
  exact List.length_map ..

/-- Inputs or outputs that all have values have a variable each. -/
theorem locations_eq {storage : StorageClass} {parameters : List Parameter} {xs : List Slot}
    (hvalues : ∀ p ∈ parameters, p.type.builtin? ≠ some .void)
    (hxs : List.Forall₂ (Located h storage) (places parameters) xs) :
    xs.map Slot.location = List.range parameters.length := by
  have hplaces : places parameters = parameters.zipIdx := by
    refine List.filter_eq_self.mpr fun x hx => decide_eq_true (hvalues x.1 ?_)
    exact List.fst_mem_of_mem_zipIdx hx
  rw [hplaces] at hxs
  rw [map_eq_of_forall₂ hxs fun _ _ hx => hx.location, List.zipIdx_map_snd, List.range_eq_range']

theorem Recorded.describes {signatures : List (Id × Id)} {e : Binary.Entrypoint} {r : Entry × Block}
    (hvalues : ∀ p ∈ e.inputs ++ e.outputs, p.type.builtin? ≠ some .void)
    (hr : Recorded b h signatures e r) : Describes b e r.1 := by
  obtain ⟨hinputs, houtputs⟩ := List.forall_mem_append.mp hvalues
  refine ⟨hr.kind, hr.name, locations_eq hinputs hr.inputs, locations_eq houtputs hr.outputs, ?_⟩
  rw [hr.head]
  exact List.map_eq_nil_iff.mpr (List.forall₂_nil_left_iff.mp hr.block.parameters)

/-! ### The instructions of each kind -/

theorem having_append (op : Op) (log more : List Instruction) :
    having op (log ++ more) = having op log ++ having op more := List.filter_append _ _

theorem having_flatMap (op : Op) {α : Type} (xs : List α) (f : α → List Instruction) :
    having op (xs.flatMap f) = xs.flatMap fun a => having op (f a) := List.filter_flatMap

/-- The instructions with an opcode that were pushed and can be written are those in the module. -/
theorem having_instructions {op : Op} (hop : op ∉ preambleOps) (options : Options) (h : List Event) :
    having op (after options h).output.instructions =
      (having op (pushes options h)).filter Instruction.isWritable := by
  refine filter_instructions options h (f := fun other => other == op) (s := home op) fun other hother => ?_
  rw [beq_iff_eq.mp hother]
  exact ⟨rfl, hop⟩

section

variable (hv : Valid b h) (hids : (handed h).length < idLimit)
include hv hids

/-- The instructions of a kind that are not too long are those in the module. -/
theorem Valid.having_short (options : Options) {op : Op} (hop : op ∉ preambleOps) :
    having op (after options h).output.instructions =
      (having op (pushes options h)).filter fun i => i.wordCount < UInt16.size := by
  rw [having_instructions hop]
  refine List.filter_congr fun i hi => ?_
  rw [Bool.eq_iff_iff, decide_eq_true_iff]
  exact hv.isWritable_iff hids (List.mem_filter.mp hi).1

/-- Where the instructions of a kind are short, all are in the module. -/
theorem Valid.having_all (options : Options) {op : Op} (hop : op ∉ preambleOps) (hshort : op ∉ longOps) :
    having op (after options h).output.instructions = having op (pushes options h) := by
  rw [having_instructions hop]
  refine List.filter_eq_self.mpr fun i hi => ?_
  obtain ⟨hi, hiop⟩ := List.mem_filter.mp hi
  exact hv.isWritable_of_short hids hi (by rwa [beq_iff_eq.mp hiop])

end

theorem Valid.having_pushes (hv : Valid b h) (options : Options) {op : Op} (htype : isType op = false)
    (hname : op ≠ .name) : having op (pushes options h) = having op (summary h).log := by
  refine hv.filter_pushes options (f := fun other => other == op) fun other hother => ?_
  rw [beq_iff_eq.mp hother]
  exact ⟨htype, hname⟩

theorem Valid.having_name (hv : Valid b h) (options : Options) :
    having .name (pushes options h) =
      (summary h).names.flatMap fun e => nameRecords options e.1 e.2 := by
  induction hv with
  | nil => rfl
  | @snoc h e hv he ih =>
      have hevent : having .name (e.pushed options) =
          e.summary.names.flatMap fun e => nameRecords options e.1 e.2 := by
        have hapart : ∀ op ∈ emittedOps, (op == .name) = false := by decide
        have hnone : ∀ {i : Instruction}, Emitted i → having .name [i] = [] := fun hi =>
          List.filter_eq_nil_iff.mpr (List.forall_mem_singleton.mpr (by simp [hapart _ hi.op_mem]))
        cases e with
        | type k x op operands =>
            refine List.filter_eq_nil_iff.mpr (List.forall_mem_singleton.mpr fun hop => ?_)
            obtain rfl : op = .name := beq_iff_eq.mp hop
            cases he.2.2.isType_eq
        | define x i => exact hnone he.2.2.1
        | push i => exact hnone he.2.1
        | name x text =>
            simp only [Event.pushed, Event.summary, nameRecords, List.flatMap_singleton]
            split <;> rfl
        | reserve | report => rfl
      rw [pushes_append, pushes_singleton, having_append, ih, hevent, summary_append,
        summary_singleton, ← List.flatMap_append]
      rfl

/-! ### The records of each kind -/

theorem having_block_eq_nil {k : Block} (hk : k.Closed) {op : Op} (hop : home op ≠ .functions) :
    having op k.instructions = [] := by
  refine List.filter_eq_nil_iff.mpr fun i hi hother => hop ?_
  rw [← beq_iff_eq.mp hother]
  exact beq_iff_eq.mp (hk.isCode i hi)

theorem having_function_block {k : Block} (hk : k.Closed) :
    having .function k.instructions = [k.head.instruction] := by
  have hparameters : (k.parameters.map Block.parameter).filter (fun i => i.op == .function) = [] :=
    List.filter_eq_nil_iff.mpr (List.forall_mem_map.mpr fun _ _ => Bool.false_ne_true)
  have hcalls : (k.calls.map Call.instruction).filter (fun i => i.op == .function) = [] :=
    List.filter_eq_nil_iff.mpr (List.forall_mem_map.mpr fun _ _ => Bool.false_ne_true)
  have hend : ∀ op ∈ [Op.kill, .ret, .unreachable], (op == .function) = false := by decide
  simp [having, Block.instructions, Block.header, hparameters, hcalls, hend _ hk, Head.instruction,
    Block.head]

theorem having_slots (op : Op) (storage : StorageClass) (slots : List Slot) :
    having op (slots.flatMap (Slot.records storage)) =
      if op = .var then slots.map (Slot.declaration storage)
      else if op = .decorate then slots.map Slot.decoration else [] := by
  rw [having_flatMap]
  induction slots with
  | nil => simp
  | cons x slots ih =>
      rw [List.flatMap_cons, ih]
      cases op <;> rfl

theorem having_modes (op : Op) (kind : EntrypointKind) (id : Id) (hop : op ≠ .executionMode) :
    having op (modes kind id) = [] := by
  refine List.filter_eq_nil_iff.mpr fun i hi hother => hop ?_
  rw [← beq_iff_eq.mp hother, op_of_mem_modes hi]

/-- What an entrypoint records, by kinds. -/
theorem having_records (op : Op) (e : Entry) (hop : op ≠ .executionMode) :
    having op e.records =
      match op with
      | .var => e.declarations
      | .decorate => e.decorations
      | .entryPoint => [e.instruction]
      | _ => [] := by
  have hpoint : having op (e.instruction :: modes e.kind e.head.id) = having op [e.instruction] := by
    rw [← List.singleton_append, having_append, having_modes op _ _ hop, List.append_nil]
  rw [Entry.records, having_append, having_append, hpoint, having_slots, having_slots]
  cases op <;> simp [having, Entry.instruction, Entry.declarations, Entry.decorations]

namespace Transcript

variable {functions : List (String × Block)} {entries : List (Entry × Block)}
  (ht : Transcript b h functions entries)
include ht

/-- Only entrypoints record instructions that are neither names nor code. -/
theorem having_ofEntries (options : Options) {op : Op} (htype : isType op = false) (hname : op ≠ .name)
    (hcode : home op ≠ .functions) :
    having op (pushes options h) = entries.flatMap fun r => having op r.1.records := by
  have hnone : functions.flatMap (fun r => having op r.2.instructions) = [] :=
    List.flatMap_eq_nil_iff.mpr fun r hr => having_block_eq_nil (ht.closed.1 r hr) hcode
  rw [ht.valid.having_pushes options htype hname, ht.summary, having_append, having_flatMap, hnone,
    List.nil_append, having_flatMap]
  refine List.flatMap_congr fun r hr => ?_
  rw [having_append, having_block_eq_nil (ht.closed.2 r hr) hcode, List.append_nil]

theorem having_entryPoint (options : Options) :
    having .entryPoint (pushes options h) = (entries.map Prod.fst).map Entry.instruction := by
  rw [ht.having_ofEntries options rfl (by decide) (by decide), List.map_map, List.map_eq_flatMap]
  simp only [having_records .entryPoint _ (by decide), Function.comp_apply]

theorem having_var (options : Options) :
    having .var (pushes options h) = (entries.map Prod.fst).flatMap Entry.declarations := by
  rw [ht.having_ofEntries options rfl (by decide) (by decide), List.flatMap_map]
  simp only [having_records .var _ (by decide)]

theorem having_decorate (options : Options) :
    having .decorate (pushes options h) = (entries.map Prod.fst).flatMap Entry.decorations := by
  rw [ht.having_ofEntries options rfl (by decide) (by decide), List.flatMap_map]
  simp only [having_records .decorate _ (by decide)]

theorem head_eq : ∀ r ∈ entries, r.1.head = r.2.head := by
  intro r hr
  obtain ⟨e, _, he⟩ := exists_mem_of_forall₂ ht.ofEntrypoints.flip hr
  exact Recorded.head he

/-- All code is in the blocks. -/
theorem having_code (options : Options) {op : Op} (hcode : home op = .functions)
    (hapart : isType op = false ∧ op ≠ .name) : having op (pushes options h) =
      functions.flatMap (fun r => having op r.2.instructions) ++
        entries.flatMap fun r => having op r.2.instructions := by
  have hrecords : ∀ e : Entry, having op e.records = [] := fun e =>
    List.filter_eq_nil_iff.mpr fun i hi hother => by
      have hno := e.not_isCode i hi
      rw [beq_iff_eq.mp hother, hcode] at hno
      cases hno
  rw [ht.valid.having_pushes options hapart.1 hapart.2, ht.summary, having_append, having_flatMap,
    having_flatMap]
  simp only [having_append, hrecords, List.nil_append]

theorem having_function (options : Options) :
    having .function (pushes options h) =
      (functions.map FunctionEntry.ofBlock).map (fun f => f.head.instruction) ++
        (entries.map Prod.fst).map fun e => e.head.instruction := by
  rw [ht.having_code options rfl ⟨rfl, by decide⟩, List.map_map, List.map_map, List.map_eq_flatMap,
    List.map_eq_flatMap]
  congr 1
  · exact List.flatMap_congr fun r hr => having_function_block (ht.closed.1 r hr)
  · refine List.flatMap_congr fun r hr => ?_
    rw [having_function_block (ht.closed.2 r hr), ← ht.head_eq r hr]
    rfl

theorem having_name (options : Options) :
    having .name (pushes options h) =
      (functions.map FunctionEntry.ofBlock).flatMap (fun f => nameRecords options f.head.id f.name) ++
        (entries.map Prod.fst).flatMap fun e => nameRecords options e.head.id e.name := by
  rw [ht.valid.having_name, ht.summary, List.flatMap_append, List.flatMap_map, List.flatMap_map,
    List.flatMap_map, List.flatMap_map]
  congr 1
  refine List.flatMap_congr fun r hr => ?_
  rw [ht.head_eq r hr]
  rfl

end Transcript

/-! ### Binaries without errors -/

/-- A binary is transpiled without an error exactly if it is not erroneous. -/
theorem errored_eq_false_iff {options : Options} {file : Nat} {b : Binary} :
    (transpileBinary options file b).errored = false ↔ ¬ Erroneous b := by
  rw [← Bool.not_eq_true, not_iff_not]
  cases hvalid : b.validate with
  | error fault =>
      have hinvalid : b.validate ≠ .ok () := by
        rw [hvalid]
        exact nofun
      refine iff_of_true ?_ (.invalid hinvalid)
      simp [Staged.errored, transpileBinary, lower, hvalid, Message.isError, Problem.toMessage,
        Problem.severity]
  | ok _ =>
      rw [← hasError_problems_build options hvalid]
      simp [Staged.errored, transpileBinary, lower, hvalid, Message.isError, Problem.toMessage,
        HasError]

/-- Such a binary is valid, and the words are those of its module. -/
theorem accepted_of_transpile {options : Options} {file : Nat} {b : Binary}
    (h : (transpileBinary options file b).errored = false) :
    b.validate = .ok () ∧ ¬ Erroneous b ∧
      (transpileBinary options file b).value = (build options b).output.assemble := by
  have herror := errored_eq_false_iff.mp h
  have hvalid : b.validate = .ok () := Classical.byContradiction fun hno => herror (.invalid hno)
  exact ⟨hvalid, herror, by simp [transpileBinary, lower, hvalid]⟩

/-- **What is recorded of a binary.**  If it is transpiled without an error, its words are a header and
whole instructions, and its history has an entry for each function and each entrypoint. -/
theorem transcript_of_transpile {file : Nat}
    (hok : (transpileBinary options file b).errored = false) :
    Spirv.splitWords ((transpileBinary options file b).value.drop 5) =
        some ((build options b).output.instructions.map Instruction.words) ∧
      ∃ h functions entries, build options b = after options h ∧ Transcript b h functions entries ∧
        List.Forall₂ (DescribesFunction b) b.functions (functions.map .ofBlock) ∧
        List.Forall₂ (Describes b) b.entrypoints (entries.map Prod.fst) := by
  obtain ⟨_, herror, hvalue⟩ := accepted_of_transpile hok
  obtain ⟨h, functions, entries, hbuild, ht⟩ := exists_transcript b
  refine ⟨?_, h, functions, entries, hbuild options, ht, ?_, ?_⟩
  · rw [hvalue, hbuild options]
    exact (grown_after options h).splitWords_assemble
  · rw [List.forall₂_map_right_iff]
    exact ht.ofFunctions.imp fun _ _ hr => hr.describes
  · have hvalues : ∀ e ∈ b.entrypoints, ∀ p ∈ e.inputs ++ e.outputs, p.type.builtin? ≠ some .void :=
      fun e he p hp hvoid => herror (.interface he hp hvoid)
    rw [List.forall₂_map_right_iff]
    refine ((List.forall₂_and_left _ _).mpr ⟨hvalues, ht.ofEntrypoints⟩).imp ?_
    rintro e r ⟨he, hr⟩
    exact hr.describes he

end Shading.Lower
