import Shading.Proofs.Lower.Ids

/-! # What the sections of a module hold

Every instruction is pushed into the section that it belongs in.  So the instructions of a kind in the
module are those of that kind that were pushed and can be written (`filter_instructions`), and where
they are neither types nor names, the summary of the history lists them (`Valid.filter_pushes`).  Types
stand among the globals.  A builtin type is known there by the id of its declaration (`Denotes`), and
what a history knows of types can be read off the globals unless ids run out (`Valid.denotes`). -/

namespace Shading.Lower

open Spirv (Id Op Operand Section Instruction StorageClass)
open Binary (BuiltinType Parameter)

variable {b : Binary} {h : List Event} {options : Options}

/-! ### Instructions of a kind -/

/-- Whatever is neither a type nor a name is in the summary. -/
theorem Valid.filter_pushes (hv : Valid b h) (options : Options) {f : Op → Bool}
    (hf : ∀ op, f op = true → isType op = false ∧ op ≠ .name) :
    (pushes options h).filter (fun i => f i.op) = (summary h).log.filter fun i => f i.op := by
  induction hv with
  | nil => rfl
  | @snoc h e hv he ih =>
      have hevent : (e.pushed options).filter (fun i => f i.op) =
          e.summary.log.filter fun i => f i.op := by
        cases e with
        | type k x op operands =>
            refine List.filter_eq_nil_iff.mpr (List.forall_mem_singleton.mpr fun hop => ?_)
            exact absurd he.2.2.isType_eq (by simp [(hf op hop).1])
        | name x text =>
            refine List.filter_eq_nil_iff.mpr fun i hi hop => ?_
            exact (hf _ hop).2 (congrArg Instruction.op (mem_nameRecords.mp hi).2)
        | reserve | define | push | report => rfl
      rw [pushes_append, pushes_singleton, summary_append, summary_singleton, List.filter_append, ih,
        hevent, ← List.filter_append]
      rfl

theorem isType_of_mem_emittedOps : ∀ op ∈ emittedOps, isType op = false := by decide

/-- A type that is pushed was declared from known types. -/
theorem Valid.event_of_isType (hv : Valid b h) {i : Instruction} (hi : i ∈ pushes options h)
    (htype : isType i.op = true) : ∃ k x operands, .type k x i.op operands ∈ h ∧
      i.operands = .id x :: operands ∧ DeclaredFrom b h k i.op operands := by
  obtain ⟨e, he, hpushed⟩ := List.mem_flatMap.mp hi
  obtain ⟨front, rest, rfl, _, hallowed⟩ := hv.allowed he
  have hother : ∀ {j : Instruction}, Emitted j → i ∈ [j] → False := by
    rintro j hj hi
    rw [List.mem_singleton.mp hi, isType_of_mem_emittedOps _ hj.op_mem] at htype
    cases htype
  cases e with
  | type k x op operands =>
      obtain rfl := List.mem_singleton.mp hpushed
      exact ⟨k, x, operands, he, rfl, hallowed.2.2.mono _⟩
  | define x j => exact (hother hallowed.2.2.1 hpushed).elim
  | push j => exact (hother hallowed.2.1 hpushed).elim
  | name x text =>
      rw [(mem_nameRecords.mp hpushed).2] at htype
      cases htype
  | reserve | report => cases hpushed

/-- What a module declares before its sections. -/
def preambleOps : List Op := [.capability, .extension, .memoryModel]

theorem op_mem_preambleOps (m : Spirv.Module) : ∀ i ∈ m.declarations, i.op ∈ preambleOps := by
  refine List.forall_mem_append.mpr ⟨List.forall_mem_append.mpr ⟨?_, ?_⟩, by decide⟩
  · exact List.forall_mem_map.mpr fun c _ => List.mem_cons_self
  · intro i hi
    obtain ⟨name, _, rfl⟩ := List.mem_map.mp (List.mem_filter.mp hi).1
    exact List.mem_cons_of_mem _ List.mem_cons_self

theorem home_of_mem_code {s : Section} {i : Instruction}
    (hi : i ∈ ((after options h).output.code s).instructions.toList) : home i.op = s := by
  rw [code_after] at hi
  exact beq_iff_eq.mp (Bool.and_eq_true_iff.mp (List.mem_filter.mp hi).2).2

/-- The instructions of a kind that only one section has. -/
theorem filter_instructions (options : Options) (h : List Event) {f : Op → Bool} {s : Section}
    (hf : ∀ op, f op = true → home op = s ∧ op ∉ preambleOps) :
    (after options h).output.instructions.filter (fun i => f i.op) =
      ((pushes options h).filter fun i => f i.op).filter Instruction.isWritable := by
  have hdeclarations : (after options h).output.declarations.filter (fun i => f i.op) = [] :=
    List.filter_eq_nil_iff.mpr fun i hi hop => (hf i.op hop).2 (op_mem_preambleOps _ i hi)
  have hsection : ∀ t, ((after options h).output.code t).instructions.toList.filter (fun i => f i.op) =
      if t = s then ((pushes options h).filter fun i => f i.op).filter Instruction.isWritable
      else [] := by
    intro t
    rw [code_after, List.filter_filter, List.filter_filter]
    split
    case isTrue ht =>
      refine List.filter_congr fun i _ => ?_
      cases hop : f i.op with
      | false => simp
      | true => simp [(hf i.op hop).1, ht]
    case isFalse ht =>
      refine List.filter_eq_nil_iff.mpr fun i _ hkept => ht ?_
      simp only [Bool.and_eq_true, beq_iff_eq] at hkept
      rw [← hkept.2.2, (hf i.op hkept.1).1]
  rw [Spirv.Module.instructions_eq, List.filter_append, hdeclarations, Spirv.Module.pushed,
    Spirv.Module.sections_eq, List.flatMap_map, List.filter_flatMap, funext hsection]
  cases s <;> simp [Named.all]

/-! ### Types among the globals -/

def IsFloat (globals : List Instruction) (x : Id) : Prop :=
  ⟨.typeFloat, [.id x, .literal 32]⟩ ∈ globals

def IsVector (globals : List Instruction) (size : UInt32) (x : Id) : Prop :=
  ∃ component, IsFloat globals component ∧
    ⟨.typeVector, [.id x, .id component, .literal size]⟩ ∈ globals

/-- The globals declare the id as the type. -/
def Denotes (globals : List Instruction) (x : Id) : BuiltinType → Prop
  | .void => ⟨.typeVoid, [.id x]⟩ ∈ globals
  | .bool => ⟨.typeBool, [.id x]⟩ ∈ globals
  | .int => ⟨.typeInt, [.id x, .literal 32, .literal 1]⟩ ∈ globals
  | .uint => ⟨.typeInt, [.id x, .literal 32, .literal 0]⟩ ∈ globals
  | .float => IsFloat globals x
  | .vec2 => IsVector globals 2 x
  | .vec3 => IsVector globals 3 x
  | .vec4 => IsVector globals 4 x
  | .mat4 => ∃ column, IsVector globals 4 column ∧
      ⟨.typeMatrix, [.id x, .id column, .literal 4]⟩ ∈ globals

def IsPointer (globals : List Instruction) (storage : StorageClass) (pointee x : Id) : Prop :=
  ⟨.typePointer, [.id x, .enumerant (.of storage), .id pointee]⟩ ∈ globals

/-- The globals declare the id as the type in which the parameter is passed: that of its values, or of
pointers to them if the function writes to it. -/
def Passes (globals : List Instruction) (parameter : Parameter) (x : Id) : Prop :=
  ∃ value, Denotes globals value (resolve parameter.type) ∧
    if isByReference parameter then IsPointer globals .function value x else x = value

theorem short_of_isType {op : Op} (htype : isType op = true) (hop : op ≠ .typeFunction) :
    op ∉ longOps := by
  revert htype hop
  cases op <;> decide

/-- A type that the history knows was declared from types that it knows. -/
theorem Valid.declaration (hv : Valid b h) (hids : (handed h).length < idLimit) (options : Options)
    {k : TypeKey} {x : Id} (hk : Known h k x) :
    ∃ op operands, DeclaredFrom b h k op operands ∧
      (op ≠ .typeFunction → ⟨op, .id x :: operands⟩ ∈ globalsAfter options h) := by
  obtain ⟨op, operands, hmem⟩ := hk
  obtain ⟨front, rest, rfl, _, _, _, hdeclared⟩ := hv.allowed hmem
  refine ⟨op, operands, hdeclared.mono _, fun hop => ?_⟩
  obtain ⟨hpushed, hplace⟩ := hv.declaration_mem options hmem
  have hshort := short_of_isType hdeclared.isType_eq hop
  exact mem_globalsAfter.mpr ⟨hpushed, hv.isWritable_of_short hids hpushed hshort, hplace⟩

section

variable (hv : Valid b h) (hids : (handed h).length < idLimit) {x : Id}
include hv hids

theorem Valid.isFloat (hx : Known h (.builtin .float) x) : IsFloat (globalsAfter options h) x := by
  obtain ⟨op, operands, hdeclared, hmem⟩ := hv.declaration hids options hx
  cases hdeclared
  exact hmem (by decide)

/-- What the history knows of a builtin type. -/
theorem Valid.denotes {type : BuiltinType} (hx : Known h (.builtin type) x) :
    Denotes (globalsAfter options h) x type := by
  obtain ⟨op, operands, hdeclared, hmem⟩ := hv.declaration hids options hx
  cases hdeclared with
  | void | bool | int | uint | float => exact hmem (by decide)
  | vec2 hc | vec3 hc | vec4 hc => exact ⟨_, hv.isFloat hids hc, hmem (by decide)⟩
  | mat4 hc =>
      obtain ⟨_, _, hcolumn, hcolumns⟩ := hv.declaration hids options hc
      cases hcolumn with
      | vec4 hc => exact ⟨_, ⟨_, hv.isFloat hids hc, hcolumns (by decide)⟩, hmem (by decide)⟩

theorem Valid.isPointer {storage : StorageClass} {pointee : Id}
    (hx : Known h (.pointer storage pointee) x) :
    IsPointer (globalsAfter options h) storage pointee x := by
  obtain ⟨op, operands, hdeclared, hmem⟩ := hv.declaration hids options hx
  cases hdeclared
  exact hmem (by decide)

theorem Valid.passes {parameter : Parameter} (hx : PassedBy h parameter x) :
    Passes (globalsAfter options h) parameter x := by
  obtain ⟨value, hvalue, hpassed⟩ := hx
  refine ⟨value, hv.denotes hids hvalue, ?_⟩
  split
  case isTrue href =>
    rw [if_pos href] at hpassed
    exact hv.isPointer hids hpassed
  case isFalse href => rwa [if_neg href] at hpassed

end

end Shading.Lower
