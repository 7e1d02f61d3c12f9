import Shading.Binary.Basic
import Shading.Text.Quoted

/-! # Binaries as text

A dump shows each entrypoint and function with its parameters and the instructions of its body.
What does not resolve is shown in angle brackets. -/

namespace Shading.Binary

def dumpName (b : Binary) (range : Range) : String :=
  match b.name? range with
  | some name => Text.quote name
  | none => s!"<bad name {range.offset}+{range.length}>"

/-- A parameter with its type and its qualifiers, on a line of its own. -/
def dumpParameter (label : String) (p : Parameter) : String :=
  let qualifiers := p.qualifiers.filter (· ≠ .none)
  let shown := qualifiers.map fun q => " " ++ Named.name q
  "  " ++ label ++ " " ++ p.type.display ++ String.join shown ++ "\n"

def dumpParameters (label : String) (parameters : List Parameter) : String :=
  String.join (parameters.map (dumpParameter label))

def dumpInstruction (i : Instruction) : String :=
  let operands := i.operands.map fun w => s!" {w}"
  s!"  {i.offset}: {Named.name i.opcode}" ++ String.join operands ++ "\n"

def dumpBody (b : Binary) (range : Range) : String :=
  match b.words? range with
  | none => s!"  <bad code range {range.offset}+{range.length}>\n"
  | some words =>
    let reading := readInstructions words
    let fault := reading.fault?.toList.map fun f => s!"  <{f.message}>\n"
    String.join (reading.instructions.map dumpInstruction ++ fault)

def dumpEntrypoint (b : Binary) (e : Entrypoint) : String :=
  s!"entrypoint {Named.name e.kind} {b.dumpName e.name}\n" ++ dumpParameters "in" e.inputs ++
    dumpParameters "out" e.outputs ++ b.dumpBody e.code

def dumpFunction (b : Binary) (index : Nat) (f : Function) : String :=
  s!"function {index} {b.dumpName f.name} -> {f.returnType.display}\n" ++
    dumpParameters "param" f.parameters ++ b.dumpBody f.code

/-- The binary as text. -/
def dump (b : Binary) : String :=
  String.join (b.entrypoints.map b.dumpEntrypoint) ++
    String.join (b.functions.zipIdx.map fun (f, i) => b.dumpFunction i f)

end Shading.Binary
