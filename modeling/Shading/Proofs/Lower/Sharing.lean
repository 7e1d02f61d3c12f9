import Shading.Proofs.Lower.Inventory

/-! # Types are shared

A type is declared only if its key is not known yet.  As declarations for different keys differ in their
opcodes or operands, no two declarations in a module are alike (`Valid.nodup_types`), and what a type or
a pointer is known by can be read off its declaration (`Valid.typeIds`).  Along with the blocks of
functions and the variables of entrypoints this says which types everything in a module refers to
(`types_declared_once`). -/

namespace Shading.Lower

open Spirv (Id Op Operand Section Instruction StorageClass)
open Binary (BuiltinType Parameter)

/-! ### Declarations and their keys -/

/-- What sets the declaration of a type apart from others: its opcode and the words after its id. -/
def typeContent (i : Instruction) : Op × List UInt32 := (i.op, i.words.drop 2)

theorem storageClass_number_injective :
    Function.Injective fun s : StorageClass => (Spirv.Enumerant.of s).number := by
  have hfind : ∀ s : StorageClass, Spirv.Enumeration.all.find?
      (fun t : StorageClass => t.entry.number == s.entry.number) = some s := by
    intro s
    cases s <;> rfl
  intro s t h
  have hsame := hfind s
  rw [show s.entry.number = t.entry.number from h, hfind t] at hsame
  exact (Option.some.inj hsame).symm

theorem id_number_injective : Function.Injective Id.number := by
  rintro ⟨x⟩ ⟨y⟩ rfl
  rfl

theorem typeContent_eq {i : Instruction} {x : Id} {operands : List Operand}
    (h : i.operands = .id x :: operands) :
    typeContent i = (i.op, operands.flatMap Operand.words) := by
  rw [typeContent, Instruction.words, h]
  rfl

variable {b : Binary} {h : List Event} {options : Options}

/-- Declarations that are alike belong to the same key, whatever the ids of their components. -/
theorem DeclaredFrom.unique {k l : TypeKey} {op : Op} {operands others : List Operand}
    {front : List Event} (hk : DeclaredFrom b h k op operands) (hl : DeclaredFrom b front l op others)
    (hwords : operands.flatMap Operand.words = others.flatMap Operand.words) : k = l := by
  cases hk with
  | pointer =>
      cases hl with
      | pointer =>
          simp only [List.flatMap_cons, Operand.words, List.flatMap_nil, List.cons_append,
            List.nil_append, List.cons.injEq, and_true] at hwords
          rw [storageClass_number_injective hwords.1, id_number_injective hwords.2]
  | function =>
      cases hl with
      | function =>
          simp only [List.flatMap_cons, Operand.words, List.flatMap_nil, List.cons_append,
            List.nil_append, List.append_nil, List.cons.injEq] at hwords
          rw [id_number_injective hwords.1, id_number_injective.list_map hwords.2]
  | _ =>
      cases hl <;> first | rfl | simp [Operand.words] at hwords

/-- **Every type is declared once.**  A key that is known is not declared again. -/
theorem Valid.nodup_types (hv : Valid b h) (options : Options) :
    (((pushes options h).filter fun i => isType i.op).map typeContent).Nodup := by
  induction hv with
  | nil => exact List.nodup_nil
  | @snoc h e hv he ih =>
      have hnone : ∀ is : List Instruction, (∀ i ∈ is, isType i.op = false) →
          (((pushes options h).filter (fun i => isType i.op) ++ is.filter fun i => isType i.op).map
            typeContent).Nodup := by
        intro is his
        have hfilter : is.filter (fun i => isType i.op) = [] :=
          List.filter_eq_nil_iff.mpr fun i hi => by simp [his i hi]
        rw [hfilter, List.append_nil]
        exact ih
      have hemitted : ∀ {i : Instruction}, Emitted i → ∀ j ∈ [i], isType j.op = false := fun hi =>
        List.forall_mem_singleton.mpr (isType_of_mem_emittedOps _ hi.op_mem)
      rw [pushes_append, List.filter_append, pushes_singleton]
      cases e with
      | type k x op operands =>
          obtain ⟨_, hnew, hdeclared⟩ := he
          have hkept : [(⟨op, .id x :: operands⟩ : Instruction)].filter (fun i => isType i.op) =
              [⟨op, .id x :: operands⟩] :=
            List.filter_eq_self.mpr (List.forall_mem_singleton.mpr hdeclared.isType_eq)
          rw [Event.pushed, hkept, List.map_append, List.nodup_append']
          refine ⟨ih, List.nodup_singleton _, List.disjoint_singleton.mpr fun hmem => ?_⟩
          -- a declaration that is alike would be one for the same key
          obtain ⟨i, hi, hsame⟩ := List.mem_map.mp hmem
          obtain ⟨hi, htype⟩ := List.mem_filter.mp hi
          obtain ⟨l, y, others, hevent, hoperands, hl⟩ := hv.event_of_isType hi htype
          rw [typeContent_eq hoperands, typeContent_eq rfl] at hsame
          obtain ⟨hop, hwords⟩ := Prod.mk.inj hsame
          rw [hop] at hl hevent
          rw [hl.unique hdeclared hwords] at hevent
          exact hnew y ⟨_, _, hevent⟩
      | define x i => exact hnone _ (hemitted he.2.2.1)
      | push i => exact hnone _ (hemitted he.2.1)
      | name x text =>
          refine hnone _ fun i hi => ?_
          rw [(mem_nameRecords.mp hi).2]
          rfl
      | reserve | report => exact hnone _ (List.forall_mem_nil _)

/-! ### The types that are stated -/

/-- The type that an instruction states first, which is that of its result. -/
def typeOf? (i : Instruction) : Option Id :=
  match i.operands with
  | .id x :: _ => some x
  | _ => none

/-- The types that the instructions with an opcode state first, in order. -/
def statedTypes (op : Op) (is : List Instruction) : List (Option Id) := (having op is).map typeOf?

theorem statedTypes_append (op : Op) (is others : List Instruction) :
    statedTypes op (is ++ others) = statedTypes op is ++ statedTypes op others := by
  rw [statedTypes, having_append, List.map_append]
  rfl

/-- The types stated by instructions that all have the same opcode. -/
theorem statedTypes_map {α : Type} {f : α → Instruction} {op : Op} (hf : ∀ a, (f a).op = op)
    (other : Op) (xs : List α) :
    statedTypes other (xs.map f) = if op = other then xs.map (fun a => typeOf? (f a)) else [] := by
  unfold statedTypes having
  split
  case isTrue h =>
    rw [List.filter_eq_self.mpr, List.map_map]
    · rfl
    · simp [hf, h]
  case isFalse h =>
    rw [List.filter_eq_nil_iff.mpr, List.map_nil]
    simp [hf, h]

/-- A block states the types of its results, its parameters and its calls. -/
theorem statedTypes_block {k : Block} (hk : k.Closed) :
    statedTypes .function k.instructions = [some k.returnType] ∧
      statedTypes .functionParameter k.instructions = k.parameters.map (fun x => some x.1) ∧
      statedTypes .functionCall k.instructions = k.calls.map fun c => some c.type := by
  have hparts : k.instructions = [Block.header k.returnType k.id k.type] ++
      k.parameters.map Block.parameter ++ [⟨.label, [.id k.label]⟩] ++ k.calls.map Call.instruction ++
        [⟨k.terminator, []⟩, ⟨.functionEnd, []⟩] := by
    simp [Block.instructions]
  have hclosed : ∀ last ∈ [Op.kill, .ret, .unreachable], ∀ op ∈ [Op.function, .functionParameter,
      .functionCall], statedTypes op [⟨last, []⟩, ⟨.functionEnd, []⟩] = [] := by decide
  have hlast := hclosed _ hk
  simp only [hparts, statedTypes_append, statedTypes_map (f := Block.parameter) (fun _ => rfl),
    statedTypes_map (f := Call.instruction) (fun _ => rfl), hlast .function (by decide),
    hlast .functionParameter (by decide), hlast .functionCall (by decide)]
  refine ⟨rfl, ?_, ?_⟩
  · simp [statedTypes, having, Block.header, typeOf?, Block.parameter]
  · simp [statedTypes, having, Block.header, typeOf?, Call.instruction]

/-- The types of the results of the calls that are made by the body in a code range. -/
def calledTypes (b : Binary) (range : Binary.Range) : List BuiltinType :=
  ((Binary.calls (b.body range)).filter b.takesNothing).filterMap fun n =>
    (b.functions[n]?).map fun f => resolve f.returnType

section

variable {value : BuiltinType → Id} {functions : List (String × Block)}
  (hreturns : functions.map (fun r => r.2.returnType) =
    b.functions.map fun f => value (resolve f.returnType))
include hreturns

/-- A call states the type of the results of the function that it calls. -/
theorem calls_eq {numbers : List Nat} {made : List Call} (h : List.Forall₂ (fun n c =>
      (functions.map fun r => r.2.signature)[n]? = some (c.type, c.target)) numbers made) :
    made.map Call.type = (numbers.filterMap fun n =>
      (b.functions[n]?).map fun f => resolve f.returnType).map value := by
  induction h with
  | nil => rfl
  | @cons n c _ _ hcall _ ih =>
      have htype : (functions.map fun r => r.2.returnType)[n]? = some c.type := by
        rw [List.getElem?_map, Option.map_eq_some_iff] at hcall ⊢
        obtain ⟨k, hk, hsignature⟩ := hcall
        exact ⟨k, hk, congrArg Prod.fst hsignature⟩
      rw [hreturns, List.getElem?_map, Option.map_eq_some_iff] at htype
      obtain ⟨f, hf, hvalue⟩ := htype
      rw [List.map_cons, ih, List.filterMap_cons, hf, Option.map_some, List.map_cons, hvalue]

end

/-- The id of the type in which a parameter is passed. -/
def passedAs (value : BuiltinType → Id) (pointer : StorageClass → BuiltinType → Id) (p : Parameter) :
    Id :=
  if isByReference p then pointer .function (resolve p.type) else value (resolve p.type)

/-- The ids by which a module knows its types: whatever its globals declare as a type has the id of that
type, and likewise for pointers to its values. -/
structure TypeIds (globals : List Instruction) (value : BuiltinType → Id)
    (pointer : StorageClass → BuiltinType → Id) : Prop where
  ofValues : ∀ x type, Denotes globals x type → x = value type
  ofPointers : ∀ x storage type, IsPointer globals storage (value type) x → x = pointer storage type

/-- The id that the tables have for a type. -/
def Progress.valueId (p : Progress) (type : BuiltinType) : Id :=
  ((TypeKey.builtin type).look p).getD default

/-- The id that the tables have for pointers to values of a type. -/
def Progress.pointerId (p : Progress) (storage : StorageClass) (type : BuiltinType) : Id :=
  ((TypeKey.pointer storage (p.valueId type)).look p).getD default

section

variable (hv : Valid b h)
include hv

theorem Valid.eq_valueId {type : BuiltinType} {x : Id} (hx : Known h (.builtin type) x)
    (options : Options) : x = (after options h).valueId type := by
  rw [Progress.valueId, (hv.look options).mpr hx, Option.getD_some]

theorem Valid.eq_pointerId {storage : StorageClass} {type : BuiltinType} {pointee x : Id}
    (hpointee : Known h (.builtin type) pointee) (hx : Known h (.pointer storage pointee) x)
    (options : Options) : x = (after options h).pointerId storage type := by
  rw [Progress.pointerId, ← hv.eq_valueId hpointee, (hv.look options).mpr hx, Option.getD_some]

/-- A type among the globals is known by a key. -/
theorem Valid.known_of_mem {op : Op} {x : Id} {operands : List Operand}
    (hmem : ⟨op, .id x :: operands⟩ ∈ globalsAfter options h) (htype : isType op = true) :
    ∃ k, Known h k x ∧ DeclaredFrom b h k op operands := by
  obtain ⟨k, y, others, hevent, hoperands, hdeclared⟩ :=
    hv.event_of_isType (mem_globalsAfter.mp hmem).1 htype
  obtain ⟨hid, rfl⟩ := List.cons.inj hoperands
  obtain rfl := Operand.id.inj hid
  exact ⟨k, ⟨_, _, hevent⟩, hdeclared⟩

theorem Valid.known_of_denotes {type : BuiltinType} {x : Id}
    (hx : Denotes (globalsAfter options h) x type) : Known h (.builtin type) x := by
  have hfrom : ∀ {op operands}, ⟨op, .id x :: operands⟩ ∈ globalsAfter options h → isType op = true →
      (∀ k, DeclaredFrom b h k op operands → k = .builtin type) → Known h (.builtin type) x := by
    intro op operands hmem htype hkey
    obtain ⟨k, hk, hdeclared⟩ := hv.known_of_mem hmem htype
    rwa [← hkey k hdeclared]
  cases type with
  | void | bool | int | uint | float => exact hfrom hx rfl fun k hk => by cases hk; rfl
  | vec2 | vec3 | vec4 | mat4 =>
      obtain ⟨component, _, hmem⟩ := hx
      exact hfrom hmem rfl fun k hk => by cases hk; rfl

/-- The tables know the types among the globals. -/
theorem Valid.typeIds (options : Options) :
    TypeIds (globalsAfter options h) (after options h).valueId (after options h).pointerId := by
  refine ⟨fun x type hx => hv.eq_valueId (hv.known_of_denotes hx) options, fun x storage type hx => ?_⟩
  obtain ⟨k, hk, hdeclared⟩ := hv.known_of_mem hx rfl
  have hkey : k = .pointer storage ((after options h).valueId type) := by
    generalize hoperands : [Operand.enumerant (.of storage), .id _] = operands at hdeclared
    cases hdeclared with
    | pointer =>
        obtain ⟨hstorage, hpointee⟩ := List.cons.inj hoperands
        obtain rfl := storageClass_number_injective (congrArg Spirv.Enumerant.number
          (Operand.enumerant.inj hstorage))
        rw [Operand.id.inj (List.cons.inj hpointee).1]
  rw [hkey] at hk
  rw [Progress.pointerId, (hv.look options).mpr hk, Option.getD_some]

theorem Valid.passedAs_eq {p : Parameter} {x : Id} (hx : PassedBy h p x) (options : Options) :
    x = passedAs (after options h).valueId (after options h).pointerId p := by
  obtain ⟨y, hy, hpassed⟩ := hx
  unfold passedAs
  split
  case isTrue href =>
    rw [if_pos href] at hpassed
    exact hv.eq_pointerId hy hpassed options
  case isFalse href =>
    rw [if_neg href] at hpassed
    rw [hpassed]
    exact hv.eq_valueId hy options

/-- What the block of a body states. -/
theorem Valid.stated {functions : List (String × Block)}
    (hreturns : functions.map (fun r => r.2.returnType) =
      b.functions.map fun f => (after options h).valueId (resolve f.returnType))
    {returns : BuiltinType} {parameters : List Parameter} {range : Binary.Range} {k : Block}
    (hk : Rendered b h (functions.map fun r => r.2.signature) returns parameters (b.body range) k) :
    statedTypes .function k.instructions = [some ((after options h).valueId returns)] ∧
      statedTypes .functionParameter k.instructions = parameters.map (fun p =>
        some (passedAs (after options h).valueId (after options h).pointerId p)) ∧
      statedTypes .functionCall k.instructions =
        (calledTypes b range).map fun type => some ((after options h).valueId type) := by
  obtain ⟨hfunction, hparameters, hcalls⟩ := statedTypes_block hk.closed
  refine ⟨?_, ?_, ?_⟩
  · rw [hfunction, hv.eq_valueId hk.returnType options]
  · rw [hparameters]
    exact map_eq_of_forall₂ hk.parameters fun p x hx => congrArg some (hv.passedAs_eq hx options)
  · have hsome := congrArg (List.map some) (calls_eq hreturns hk.calls)
    rw [List.map_map, List.map_map] at hsome
    exact hcalls.trans hsome

/-- What the variables for inputs or outputs state. -/
theorem Valid.stated_slots {storage : StorageClass} {parameters : List Parameter} {xs : List Slot}
    (hxs : List.Forall₂ (Located h storage) (places parameters) xs) (options : Options) :
    (xs.map (Slot.declaration storage)).map typeOf? =
      (slotTypes storage parameters).map fun e => some ((after options h).pointerId e.1 e.2) := by
  have hvalued : (places parameters).map Prod.fst = valued parameters := by
    conv_rhs => rw [← List.zipIdx_map_fst 0 parameters, valued, List.filter_map]
    rfl
  rw [slotTypes, ← hvalued, List.map_map, List.map_map, List.map_map]
  refine map_eq_of_forall₂ hxs fun p x hx => congrArg some ?_
  obtain ⟨pointee, hpointee, hpointer⟩ := hx.isSlot
  exact hv.eq_pointerId hpointee hpointer options

end

/-- **Types are declared once.**  Unless ids run out, no two declarations of types in the module of a
valid binary have the same opcode and the same operands after their ids.  Everything of the same builtin
type, and of the same storage class if it is passed or reached by a pointer, refers to the same id:
results of functions and of entrypoints, parameters, results of calls, and the variables of the inputs
and outputs that have values, in the order in which the binary has them. -/
theorem types_declared_once (options : Options) (b : Binary) (hvalid : b.validate = .ok ())
    (hids : (build options b).output.issued < UInt32.size - 1) :
    let m := (build options b).output
    Spirv.splitWords ((lower options b).1.drop 5) = some (m.instructions.map Instruction.words) ∧
    ((m.instructions.filter fun i => isType i.op).map typeContent).Nodup ∧
    ∃ (value : BuiltinType → Id) (pointer : StorageClass → BuiltinType → Id),
      TypeIds m.globals.instructions.toList value pointer ∧
      statedTypes .function m.instructions =
        (b.functions.map fun f => some (value (resolve f.returnType))) ++
          b.entrypoints.map (fun _ => some (value .void)) ∧
      statedTypes .functionParameter m.instructions =
        b.functions.flatMap (fun f => f.parameters.map fun p => some (passedAs value pointer p)) ∧
      statedTypes .functionCall m.instructions =
        (b.functions.flatMap (fun f => calledTypes b f.code) ++
          b.entrypoints.flatMap fun e => calledTypes b e.code).map (fun type => some (value type)) ∧
      statedTypes .var m.instructions =
        (b.entrypoints.flatMap entrySlots).map fun e => some (pointer e.1 e.2) := by
  intro m
  obtain ⟨h, functions, entries, hbuild, ht⟩ := exists_transcript b
  have hm : m = (after options h).output := congrArg Progress.output (hbuild options)
  have hglobals : m.globals.instructions.toList = globalsAfter options h := by
    rw [hm]
    exact code_after options h .globals
  rw [hbuild options, issued_after] at hids
  have hv := ht.valid
  have hreturns : functions.map (fun r => r.2.returnType) =
      b.functions.map fun f => (after options h).valueId (resolve f.returnType) :=
    map_eq_of_forall₂ ht.ofFunctions fun f r hr => hv.eq_valueId hr.block.returnType options
  have hofFunctions := ht.ofFunctions.imp fun f r hr => hv.stated hreturns hr.block
  have hofEntrypoints := ht.ofEntrypoints.imp fun e r hr => hv.stated hreturns hr.block
  have hstated : ∀ op ∈ [Op.function, .functionParameter, .functionCall], statedTypes op m.instructions =
      functions.flatMap (fun r => statedTypes op r.2.instructions) ++
        entries.flatMap fun r => statedTypes op r.2.instructions := by
    intro op hop
    have hkind : ∀ op ∈ [Op.function, .functionParameter, .functionCall], op ∉ preambleOps ∧
        op ∉ longOps ∧ home op = .functions ∧ isType op = false ∧ op ≠ .name := by decide
    obtain ⟨hpreamble, hshort, hcode, hapart⟩ := hkind op hop
    rw [statedTypes, hm, hv.having_all hids options hpreamble hshort, ht.having_code options hcode hapart,
      List.map_append, List.map_flatMap, List.map_flatMap]
    rfl
  refine ⟨?_, ?_, _, _, hglobals ▸ hv.typeIds options, ?_, ?_, ?_, ?_⟩
  · rw [lower, hvalid, hbuild options, hm]
    exact (grown_after options h).splitWords_assemble
  · have hkind : ∀ op, isType op = true → home op = .globals ∧ op ∉ preambleOps := fun op => by
      cases op <;> decide
    rw [hm, filter_instructions options h hkind]
    exact (hv.nodup_types options).sublist (List.filter_sublist.map _)
  · rw [hstated .function (by decide), List.map_eq_flatMap, List.map_eq_flatMap,
      flatMap_eq_of_forall₂ hofFunctions fun f r hr => hr.1,
      flatMap_eq_of_forall₂ hofEntrypoints fun e r hr => hr.1]
  · rw [hstated .functionParameter (by decide),
      flatMap_eq_of_forall₂ hofFunctions fun f r hr => hr.2.1,
      flatMap_eq_of_forall₂ hofEntrypoints fun e r hr => hr.2.1]
    simp
  · rw [hstated .functionCall (by decide),
      flatMap_eq_of_forall₂ hofFunctions fun f r hr => hr.2.2,
      flatMap_eq_of_forall₂ hofEntrypoints fun e r hr => hr.2.2, List.map_append, List.map_flatMap,
      List.map_flatMap]
  · rw [statedTypes, hm, hv.having_all hids options (by decide) (by decide), ht.having_var,
      List.map_flatMap, List.flatMap_map, List.map_flatMap]
    refine flatMap_eq_of_forall₂ ht.ofEntrypoints fun e r hr => ?_
    rw [Entry.declarations, entrySlots, List.map_append, List.map_append, hv.stated_slots hr.inputs options,
      hv.stated_slots hr.outputs options]

/-- Vectors as results, as parameters passed by value and by reference, and as inputs and outputs among
which one has no value. -/
def sharingSample : Binary where
  entrypoints := [⟨.vertex, ⟨1, 3⟩, ⟨0, 1⟩, [⟨⟨7⟩, []⟩, ⟨⟨0⟩, []⟩, ⟨⟨7⟩, []⟩], [⟨⟨7⟩, []⟩]⟩]
  functions := [⟨⟨0, 1⟩, ⟨0, 1⟩, ⟨7⟩, []⟩,
    ⟨⟨0, 1⟩, ⟨1, 1⟩, ⟨0⟩, [⟨⟨7⟩, []⟩, ⟨⟨7⟩, [.both]⟩, ⟨⟨7⟩, [.output]⟩]⟩]
  strings := [0x6d, 0x66]
  code := [0x00010001, 0x00020003, 0, 0x00010001]

theorem types_declared_once_sharingSample :
    sharingSample.validate = .ok () ∧ (build {} sharingSample).output.issued = 22 ∧
      ∃ (value : BuiltinType → Id) (pointer : StorageClass → BuiltinType → Id),
        statedTypes .function (build {} sharingSample).output.instructions =
          [some (value .vec4), some (value .void), some (value .void)] ∧
        statedTypes .functionParameter (build {} sharingSample).output.instructions =
          [some (value .vec4), some (pointer .function .vec4), some (pointer .function .vec4)] ∧
        statedTypes .functionCall (build {} sharingSample).output.instructions = [some (value .vec4)] ∧
        statedTypes .var (build {} sharingSample).output.instructions =
          [some (pointer .input .vec4), some (pointer .input .vec4), some (pointer .output .vec4)] := by
  have hvalid : sharingSample.validate = .ok () := by decide +kernel
  have hissued : (build {} sharingSample).output.issued = 22 := by decide +kernel
  have hids : (build {} sharingSample).output.issued < UInt32.size - 1 := by
    rw [hissued]
    decide
  obtain ⟨_, _, value, pointer, _, hfunctions, hparameters, hcalls, hvariables⟩ :=
    types_declared_once {} sharingSample hvalid hids
  have hcalled : sharingSample.functions.flatMap (fun f => calledTypes sharingSample f.code) ++
      sharingSample.entrypoints.flatMap (fun e => calledTypes sharingSample e.code) = [.vec4] := by
    decide +kernel
  rw [hcalled] at hcalls
  exact ⟨hvalid, hissued, value, pointer, hfunctions, hparameters, hcalls, hvariables⟩

end Shading.Lower
