import Shading.Lower.Problem
import Shading.Spirv.Module

/-! # Types in a module

A module under construction remembers which types it has declared, so that each is declared once and
before its first use. -/

namespace Shading.Lower

open Spirv (Id Op Operand StorageClass Section)
open Binary (BuiltinType TypeId Parameter)

/-- A module under construction. -/
structure Progress where
  output : Spirv.Module
  types : List (BuiltinType × Id) := []
  pointers : List ((StorageClass × Id) × Id) := []
  functionTypes : List ((Id × List Id) × Id) := []
  problems : List Problem := []
deriving Repr, Inhabited

/-- A step of the construction. -/
abbrev Build := StateM Progress

def report (problem : Problem) : Build Unit :=
  modify fun p => { p with problems := p.problems ++ [problem] }

/-- An id that was not handed out before. -/
def fresh : Build Id := modifyGet fun p =>
  let (id, output) := p.output.fresh
  (id, { p with output })

/-- Adds an instruction at the end of a section. -/
def push (place : Section) (op : Op) (operands : List Operand) : Build Unit :=
  modify fun p => { p with output := p.output.push place op operands }

/-- Adds a global instruction whose first operand is a fresh id. -/
def declare (op : Op) (operands : List Operand) : Build Id := do
  let id ← fresh
  push .globals op (.id id :: operands)
  return id

/-- Declares a type unless it has been declared. -/
def declareType (type : BuiltinType) (declaration : Build Id) : Build Id := do
  match (← get).types.lookup type with
  | some id => return id
  | none =>
    let id ← declaration
    modify fun p => { p with types := (type, id) :: p.types }
    return id

def floatType : Build Id := declareType .float (declare .typeFloat [.literal 32])

/-- A type of vectors with the given number of components. -/
def vectorType (type : BuiltinType) (size : UInt32) : Build Id :=
  declareType type do
    let component ← floatType
    declare .typeVector [.id component, .literal size]

/-- The id of a builtin type. -/
def builtinType : BuiltinType → Build Id
  | .void => declareType .void (declare .typeVoid [])
  | .bool => declareType .bool (declare .typeBool [])
  | .int => declareType .int (declare .typeInt [.literal 32, .literal 1])
  | .uint => declareType .uint (declare .typeInt [.literal 32, .literal 0])
  | .float => floatType
  | .vec2 => vectorType .vec2 2
  | .vec3 => vectorType .vec3 3
  | .vec4 => vectorType .vec4 4
  | .mat4 => declareType .mat4 do
    let column ← vectorType .vec4 4
    declare .typeMatrix [.id column, .literal 4]

/-- The builtin type with a number; in a valid binary there are no others. -/
def resolve (type : TypeId) : BuiltinType := type.builtin?.getD .void

/-- The type of pointers into a storage class. -/
def pointerType (storage : StorageClass) (pointee : Id) : Build Id := do
  match (← get).pointers.lookup (storage, pointee) with
  | some id => return id
  | none =>
    let id ← declare .typePointer [.enumerant (.of storage), .id pointee]
    modify fun p => { p with pointers := ((storage, pointee), id) :: p.pointers }
    return id

/-- The type of functions with the given result and parameters. -/
def functionType (result : Id) (parameters : List Id) : Build Id := do
  match (← get).functionTypes.lookup (result, parameters) with
  | some id => return id
  | none =>
    let id ← declare .typeFunction [.id result, .ids parameters]
    modify fun p => { p with functionTypes := ((result, parameters), id) :: p.functionTypes }
    return id

/-- The parameter is passed by reference, because the function writes to it. -/
def isByReference (p : Parameter) : Bool :=
  p.qualifiers.any fun q => q == .output || q == .both

/-- The type in which a parameter is passed. -/
def parameterType (p : Parameter) : Build Id := do
  let value ← builtinType (resolve p.type)
  if isByReference p then pointerType .function value else return value

end Shading.Lower
