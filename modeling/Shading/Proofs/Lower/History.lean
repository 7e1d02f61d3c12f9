import Mathlib.Data.List.Induction
import Shading.Proofs.Lower.Blocks
import Shading.Proofs.Lists
import Shading.Proofs.Spirv.Definite

/-! # Histories of constructions

All that a construction does is to hand out ids, to declare types that are not in its tables yet, to
push instructions, to report problems and to give names.  A list of such events is a history, and the
state of a construction is what they make of an empty one (`after`).  Which events may follow a history
is said once (`Event.Allowed`): ids are handed out in order, a type is declared from types that are
known, an instruction uses ids that were handed out.  What is true of a module because of how it was
constructed is proved by induction on its history (`Valid`).

`Runs b m h a es s` says that after the history `h` the step `m` gives `a` and adds the events `es`,
whatever the options: these decide how a name is played, but not which events there are.  What the
events come to, apart from types, is their summary `s`. -/

namespace Shading.Lower

open Spirv (Id Op Operand Section Instruction StorageClass)
open Binary (BuiltinType EntrypointKind Parameter)

/-! ### Types and their keys -/

/-- What a type is known by in the tables of a construction. -/
inductive TypeKey where
  | builtin (type : BuiltinType)
  | pointer (storage : StorageClass) (pointee : Id)
  | function (result : Id) (parameters : List Id)
deriving DecidableEq

namespace TypeKey

/-- The id of the type, if the tables have it. -/
def look (p : Progress) : TypeKey → Option Id
  | .builtin type => p.types.lookup type
  | .pointer storage pointee => p.pointers.lookup (storage, pointee)
  | .function result parameters => p.functionTypes.lookup (result, parameters)

/-- Puts the id of the type into its table. -/
def store (x : Id) (p : Progress) : TypeKey → Progress
  | .builtin type => { p with types := (type, x) :: p.types }
  | .pointer storage pointee => { p with pointers := ((storage, pointee), x) :: p.pointers }
  | .function result parameters =>
    { p with functionTypes := ((result, parameters), x) :: p.functionTypes }

/-- The type from its table, or else by a declaration. -/
def fetch (k : TypeKey) (declaration : Build Id) : Build Id := do
  match k.look (← get) with
  | some id => return id
  | none =>
    let id ← declaration
    modify fun p => k.store id p
    return id

/-- One more entry hides no other key. -/
theorem look_store (k l : TypeKey) (x : Id) (p : Progress) :
    l.look (k.store x p) = if l = k then some x else l.look p := by
  cases k <;> cases l <;> simp only [look, store, List.lookup_cons] <;> grind

theorem output_store (k : TypeKey) (x : Id) (p : Progress) : (k.store x p).output = p.output := by
  cases k <;> rfl

theorem problems_store (k : TypeKey) (x : Id) (p : Progress) :
    (k.store x p).problems = p.problems := by
  cases k <;> rfl

theorem fetch_some {k : TypeKey} {p : Progress} {x : Id} (h : k.look p = some x)
    (declaration : Build Id) : k.fetch declaration p = (x, p) := by
  show (match k.look p with | some id => pure id | none => _ : Build Id) p = _
  rw [h]
  rfl

theorem fetch_none {k : TypeKey} {p : Progress} (h : k.look p = none) (declaration : Build Id) :
    k.fetch declaration p = ((declaration p).1, k.store (declaration p).1 (declaration p).2) := by
  show (match k.look p with | some id => pure id | none => _ : Build Id) p = _
  rw [h]
  rfl

end TypeKey

/-! ### Events -/

/-- One thing that a construction does. -/
inductive Event where
  /-- Hands out an id for what is defined later. -/
  | reserve (x : Id)
  /-- Hands out an id, declares it as a type and puts it into the tables. -/
  | type (k : TypeKey) (x : Id) (op : Op) (operands : List Operand)
  /-- Hands out an id and pushes the instruction that defines it. -/
  | define (x : Id) (i : Instruction)
  | push (i : Instruction)
  | report (problem : Problem)
  /-- Gives a name to an id, if names are kept. -/
  | name (x : Id) (text : String)

/-- What a part of a history comes to, apart from the types that it declares. -/
structure Summary where
  /-- All instructions that were pushed, written or not. -/
  log : List Instruction := []
  problems : List Problem := []
  reserved : List Id := []
  /-- The ids defined by instructions that did not come with a fresh id. -/
  settled : List Id := []
  names : List (Id × String) := []

instance : Append Summary :=
  ⟨fun s t => ⟨s.log ++ t.log, s.problems ++ t.problems, s.reserved ++ t.reserved,
    s.settled ++ t.settled, s.names ++ t.names⟩⟩

@[simp] theorem Summary.mk_append_mk (log log' : List Instruction) (problems problems' : List Problem)
    (reserved reserved' settled settled' : List Id) (names names' : List (Id × String)) :
    (⟨log, problems, reserved, settled, names⟩ ++ ⟨log', problems', reserved', settled', names'⟩ :
      Summary) = ⟨log ++ log', problems ++ problems', reserved ++ reserved', settled ++ settled',
        names ++ names'⟩ := rfl

@[simp] theorem Summary.append_empty (s : Summary) : s ++ ({} : Summary) = s := by
  obtain ⟨log, problems, reserved, settled, names⟩ := s
  simp

@[simp] theorem Summary.empty_append (s : Summary) : ({} : Summary) ++ s = s := rfl

/-- The parts of a history taken together. -/
def Summary.sum (parts : List Summary) : Summary :=
  ⟨parts.flatMap log, parts.flatMap problems, parts.flatMap reserved, parts.flatMap settled,
    parts.flatMap names⟩

theorem Summary.sum_cons (s : Summary) (parts : List Summary) : sum (s :: parts) = s ++ sum parts := rfl

/-- Where problems are known from one list and all else from the other. -/
theorem Summary.sum_zipWith {α ρ : Type} {log : ρ → List Instruction} {problems : α → List Problem}
    {reserved settled : ρ → List Id} {names : ρ → List (Id × String)} {xs : List α} {rs : List ρ}
    (hlength : xs.length = rs.length) :
    sum (List.zipWith (fun a r => ⟨log r, problems a, reserved r, settled r, names r⟩) xs rs) =
      ⟨rs.flatMap log, xs.flatMap problems, rs.flatMap reserved, rs.flatMap settled,
        rs.flatMap names⟩ := by
  induction xs generalizing rs with
  | nil => simp [sum, List.length_eq_zero_iff.mp hlength.symm]
  | cons a xs ih =>
      obtain ⟨r, rs, rfl⟩ := List.exists_cons_of_length_eq_add_one hlength.symm
      rw [List.zipWith_cons_cons, sum_cons, ih (Nat.succ.inj hlength)]
      rfl

namespace Event

/-- The id that is handed out. -/
def handed? : Event → Option Id
  | .reserve x | .type _ x _ _ | .define x _ => some x
  | _ => none

/-- The instructions that are pushed, written or not. -/
def pushed (options : Options) : Event → List Instruction
  | .type _ x op operands => [⟨op, .id x :: operands⟩]
  | .define _ i | .push i => [i]
  | .name x text => nameRecords options x text
  | _ => []

def summary : Event → Summary
  | .reserve x => { reserved := [x] }
  | .type .. => {}
  | .define _ i => { log := [i] }
  | .push i => { log := [i], settled := i.result?.toList }
  | .report problem => { problems := [problem] }
  | .name x text => { names := [(x, text)] }

/-- What the event makes of a module. -/
def build (options : Options) (m : Spirv.Module) (e : Event) : Spirv.Module :=
  (e.pushed options).foldl (fun m i => m.push (home i.op) i.op i.operands)
    (if e.handed?.isSome then m.fresh.2 else m)

/-- What the event makes of a state. -/
def play (options : Options) (p : Progress) (e : Event) : Progress :=
  let next := { p with
    output := e.build options p.output
    problems := p.problems ++ e.summary.problems }
  match e with
  | .type k x _ _ => k.store x next
  | _ => next

theorem output_play (options : Options) (p : Progress) (e : Event) :
    (e.play options p).output = e.build options p.output := by
  cases e with
  | type k => rw [play, TypeKey.output_store]
  | _ => rfl

theorem problems_play (options : Options) (p : Progress) (e : Event) :
    (e.play options p).problems = p.problems ++ e.summary.problems := by
  cases e with
  | type k => rw [play, TypeKey.problems_store]
  | _ => rfl

theorem look_play (options : Options) (p : Progress) (e : Event) (k : TypeKey) :
    k.look (e.play options p) =
      match e with
      | .type l x _ _ => if k = l then some x else k.look p
      | _ => k.look p := by
  have hnext : ∀ output problems, k.look { p with output, problems } = k.look p := by
    intro output problems
    cases k <;> rfl
  cases e with
  | type l x => rw [play, TypeKey.look_store, hnext]
  | _ => exact hnext _ _

end Event

/-- The state of a construction with this history. -/
def after (options : Options) (h : List Event) : Progress :=
  h.foldl (Event.play options) { output := { version := options.version } }

/-- The ids that were handed out, in order. -/
def handed (h : List Event) : List Id := h.filterMap Event.handed?

/-- All instructions that were pushed, written or not. -/
def pushes (options : Options) (h : List Event) : List Instruction :=
  h.flatMap (Event.pushed options)

def summary (h : List Event) : Summary := .sum (h.map Event.summary)

section

variable (options : Options) (h es : List Event) (e : Event)

theorem after_append : after options (h ++ es) = es.foldl (Event.play options) (after options h) :=
  List.foldl_append

theorem after_snoc : after options (h ++ [e]) = e.play options (after options h) :=
  after_append options h [e]

theorem handed_append : handed (h ++ es) = handed h ++ handed es := List.filterMap_append

theorem pushes_append : pushes options (h ++ es) = pushes options h ++ pushes options es :=
  List.flatMap_append

theorem pushes_singleton : pushes options [e] = e.pushed options := List.flatMap_singleton ..

theorem summary_append : summary (h ++ es) = summary h ++ summary es := by
  simp [summary, Summary.sum]

theorem summary_singleton : summary [e] = e.summary := by
  simp [summary, Summary.sum]

@[simp] theorem summary_nil : summary [] = {} := rfl

theorem issued_build (m : Spirv.Module) :
    (e.build options m).issued = m.issued + (handed [e]).length := by
  have hpushes : ∀ (is : List Instruction) (m : Spirv.Module),
      (is.foldl (fun m i => m.push (home i.op) i.op i.operands) m).issued = m.issued := by
    intro is
    induction is with
    | nil => exact fun _ => rfl
    | cons i is ih => exact fun m => (ih _).trans (m.issued_push _ _ _)
  rw [Event.build, hpushes]
  cases he : e.handed? <;> simp [handed, he, Spirv.Module.fresh]

theorem issued_after : (after options h).output.issued = (handed h).length := by
  induction h using List.reverseRecOn with
  | nil => rfl
  | append_singleton h e ih =>
      rw [after_snoc, Event.output_play, issued_build, ih, handed_append, List.length_append]

theorem problems_after : (after options h).problems = (summary h).problems := by
  induction h using List.reverseRecOn with
  | nil => rfl
  | append_singleton h e ih =>
      rw [after_snoc, Event.problems_play, ih, summary_append, summary_singleton]
      rfl

/-- Pushes add to each section what belongs there and can be written. -/
theorem code_foldl_push (s : Section) (is : List Instruction) (m : Spirv.Module) :
    ((is.foldl (fun m i => m.push (home i.op) i.op i.operands) m).code s).instructions.toList =
      (m.code s).instructions.toList ++ is.filter fun i => i.isWritable && home i.op == s := by
  induction is generalizing m with
  | nil => exact (List.append_nil _).symm
  | cons i is ih =>
      rw [List.foldl_cons, ih, Spirv.Module.code_push, List.filter_cons]
      by_cases hs : s = home i.op
      · subst hs
        rw [if_pos rfl, Spirv.Code.push_instructions]
        by_cases hw : i.isWritable = true <;> simp [hw]
      · have hne : ¬home i.op = s := fun h => hs h.symm
        simp [if_neg hs, hne]

theorem code_fresh (m : Spirv.Module) (s : Section) : m.fresh.2.code s = m.code s := by
  cases s <;> rfl

/-- A section holds what was pushed, belongs there and can be written. -/
theorem code_after (s : Section) : ((after options h).output.code s).instructions.toList =
    (pushes options h).filter fun i => i.isWritable && home i.op == s := by
  induction h using List.reverseRecOn with
  | nil => cases s <;> rfl
  | append_singleton h e ih =>
      rw [after_snoc, Event.output_play, Event.build, code_foldl_push, pushes_append,
        List.filter_append, ← ih]
      congr 1
      · split
        · rw [code_fresh]
        · rfl
      · rw [pushes_singleton]

theorem grown_after : (after options h).output.Grown := by
  induction h using List.reverseRecOn with
  | nil => exact fun s => by cases s <;> exact .empty
  | append_singleton h e ih =>
      have hpushes : ∀ (is : List Instruction) (m : Spirv.Module), m.Grown →
          (is.foldl (fun m i => m.push (home i.op) i.op i.operands) m).Grown := by
        intro is
        induction is with
        | nil => exact fun _ hm => hm
        | cons i is ih => exact fun m hm => ih _ (Spirv.Module.grown_push hm _ _ _)
      rw [after_snoc, Event.output_play]
      refine hpushes _ _ fun s => ?_
      split
      · rw [code_fresh]
        exact ih s
      · exact ih s

end

/-! ### Ids -/

/-- An id is a word, and neither an id nor the bound on all ids may wrap around to zero. -/
def idLimit : Nat := UInt32.size - 1

/-- The id that is handed out after `k` others. -/
def nthId (k : Nat) : Id := ⟨(k + 1).toUInt32⟩

/-- The id that is handed out next. -/
def nextId (h : List Event) : Id := nthId (handed h).length

/-! ### Histories -/

/-- The history has declared the type with this id. -/
def Known (h : List Event) (k : TypeKey) (x : Id) : Prop :=
  ∃ op operands, Event.type k x op operands ∈ h

/-- The storage classes that pointers are made for. -/
def pointerStorage : List StorageClass := [.function, .input, .output]

/-- How many parameters function types have. -/
def arities (b : Binary) : List Nat := 0 :: b.functions.map fun f => f.parameters.length

/-- Types with the key are declared with this opcode and, after their ids, these operands. -/
inductive DeclaredFrom (b : Binary) (h : List Event) : TypeKey → Op → List Operand → Prop
  | void : DeclaredFrom b h (.builtin .void) .typeVoid []
  | bool : DeclaredFrom b h (.builtin .bool) .typeBool []
  | int : DeclaredFrom b h (.builtin .int) .typeInt [.literal 32, .literal 1]
  | uint : DeclaredFrom b h (.builtin .uint) .typeInt [.literal 32, .literal 0]
  | float : DeclaredFrom b h (.builtin .float) .typeFloat [.literal 32]
  | vec2 {component : Id} (hc : Known h (.builtin .float) component) :
    DeclaredFrom b h (.builtin .vec2) .typeVector [.id component, .literal 2]
  | vec3 {component : Id} (hc : Known h (.builtin .float) component) :
    DeclaredFrom b h (.builtin .vec3) .typeVector [.id component, .literal 3]
  | vec4 {component : Id} (hc : Known h (.builtin .float) component) :
    DeclaredFrom b h (.builtin .vec4) .typeVector [.id component, .literal 4]
  | mat4 {column : Id} (hc : Known h (.builtin .vec4) column) :
    DeclaredFrom b h (.builtin .mat4) .typeMatrix [.id column, .literal 4]
  | pointer {storage : StorageClass} {pointee : Id} (hs : storage ∈ pointerStorage)
    (hp : ∃ type, Known h (.builtin type) pointee) :
    DeclaredFrom b h (.pointer storage pointee) .typePointer [.enumerant (.of storage), .id pointee]
  | function {result : Id} {parameters : List Id} (hr : ∃ k, Known h k result)
    (hp : ∀ x ∈ parameters, ∃ k, Known h k x) (hcount : parameters.length ∈ arities b) :
    DeclaredFrom b h (.function result parameters) .typeFunction [.id result, .ids parameters]

/-- The instructions that are pushed besides types and names. -/
inductive Emitted : Instruction → Prop
  | header (returnType id type : Id) : Emitted (Block.header returnType id type)
  | parameter (x : Id × Id) : Emitted (Block.parameter x)
  | label (x : Id) : Emitted ⟨.label, [.id x]⟩
  | call (c : Call) : Emitted c.instruction
  | bare {op : Op} (h : op ∈ [.ret, .unreachable, .kill, .functionEnd]) : Emitted ⟨op, []⟩
  | slot {storage : StorageClass} (h : storage ∈ pointerStorage) (x : Slot) :
    Emitted (x.declaration storage)
  | location (x : Slot) : Emitted x.decoration
  | entry (e : Entry) : Emitted e.instruction
  | mode {kind : EntrypointKind} {id : Id} {i : Instruction} (h : i ∈ modes kind id) : Emitted i

/-- The event may follow the history. -/
def Event.Allowed (b : Binary) (h : List Event) : Event → Prop
  | .reserve x => x = nextId h
  | .type k x op operands => x = nextId h ∧ (∀ y, ¬Known h k y) ∧ DeclaredFrom b h k op operands
  | .define x i => x = nextId h ∧ i.result? = some x ∧ Emitted i ∧ (∀ y ∈ i.uses, y ∈ handed h) ∧
    (home i.op = .globals → ∀ y ∈ i.uses, ∃ k, Known h k y)
  | .push i => home i.op ≠ .globals ∧ Emitted i ∧ ∀ y ∈ i.operands.flatMap Operand.idsOf, y ∈ handed h
  | .report _ => True
  | .name x _ => x ∈ handed h

/-- Histories in which every event is allowed. -/
inductive Valid (b : Binary) : List Event → Prop
  | nil : Valid b []
  | snoc {h : List Event} {e : Event} (hv : Valid b h) (he : e.Allowed b h) : Valid b (h ++ [e])

section

variable {b : Binary} {h es : List Event} {k : TypeKey} {x : Id}

theorem Known.mono (hk : Known h k x) (es : List Event) : Known (h ++ es) k x := by
  obtain ⟨op, operands, hmem⟩ := hk
  exact ⟨op, operands, List.mem_append_left es hmem⟩

theorem known_append : Known (h ++ es) k x ↔ Known h k x ∨ Known es k x := by
  simp [Known, exists_or]

theorem known_singleton {e : Event} : Known [e] k x ↔ ∃ op operands, e = .type k x op operands := by
  simp [Known, eq_comm]

theorem Known.mem_handed (hk : Known h k x) : x ∈ handed h := by
  obtain ⟨op, operands, hmem⟩ := hk
  exact List.mem_filterMap.mpr ⟨_, hmem, rfl⟩

theorem mem_handed_append (hx : x ∈ handed h) (es : List Event) : x ∈ handed (h ++ es) := by
  rw [handed_append]
  exact List.mem_append_left _ hx

/-- The tables know the types that were declared.  Only one of them has a key, as it is not declared
again. -/
theorem Valid.look (hv : Valid b h) (options : Options) :
    k.look (after options h) = some x ↔ Known h k x := by
  induction hv with
  | nil =>
      constructor
      · cases k <;> exact nofun
      · rintro ⟨_, _, hmem⟩
        cases hmem
  | @snoc h e hv he ih =>
      rw [after_snoc, Event.look_play, known_append]
      cases e with
      | type l y op operands =>
          obtain ⟨_, hnew, _⟩ := he
          dsimp only
          by_cases hk : k = l
          · subst hk
            rw [if_pos rfl, or_iff_right (hnew x), known_singleton]
            simp [eq_comm]
          · have hother : ¬Known [.type l y op operands] k x := by simp [known_singleton, hk, eq_comm]
            rw [if_neg hk, ih, or_iff_left hother]
      | _ => simp [ih, known_singleton]

end

/-! ### Steps -/

/-- After the history `h` the step gives `a` and adds the events `es`, which come to `s`, whatever the
options. -/
structure Runs (b : Binary) {α : Type} (m : Options → Build α) (h : List Event) (a : α) (es : List Event)
    (s : Summary) : Prop where
  result : ∀ options, m options (after options h) = (a, after options (h ++ es))
  valid : Valid b (h ++ es)
  summary : summary es = s

section

variable {b : Binary} {α β : Type} {h es : List Event} {s : Summary}

theorem runs_pure (hv : Valid b h) (a : α) : Runs b (fun _ => pure a) h a [] {} where
  result options := by
    rw [List.append_nil]
    rfl
  valid := by rwa [List.append_nil]
  summary := rfl

theorem Runs.bind {m : Options → Build α} {f : α → Options → Build β} {a : α} {r : β}
    {more : List Event} {t : Summary} (hm : Runs b m h a es s) (hf : Runs b (f a) (h ++ es) r more t) :
    Runs b (fun options => m options >>= fun a => f a options) h r (es ++ more) (s ++ t) where
  result options := by
    show f (m options (after options h)).1 options (m options (after options h)).2 = _
    rw [hm.result, ← List.append_assoc]
    exact hf.result options
  valid := by
    rw [← List.append_assoc]
    exact hf.valid
  summary := by rw [summary_append, hm.summary, hf.summary]

/-- Two steps, the second of which does not need the result of the first. -/
theorem Runs.andThen {m : Options → Build α} {n : Options → Build β} {a : α} {r : β}
    {more : List Event} {t : Summary} (hm : Runs b m h a es s) (hn : Runs b n (h ++ es) r more t) :
    Runs b (fun options => m options >>= fun _ => n options) h r (es ++ more) (s ++ t) :=
  hm.bind (f := fun _ => n) hn

theorem Runs.congr {m : Options → Build α} {a : α} {t : Summary} (hm : Runs b m h a es s)
    (hst : s = t) : Runs b m h a es t :=
  hst ▸ hm

/-- A step that amounts to an event. -/
theorem runs_event (hv : Valid b h) {m : Options → Build α} {a : α} {e : Event} (he : e.Allowed b h)
    (hm : ∀ options, m options (after options h) = (a, e.play options (after options h))) :
    Runs b m h a [e] e.summary where
  result options := by rw [hm, after_snoc]
  valid := hv.snoc he
  summary := summary_singleton e

theorem runs_report (hv : Valid b h) (problem : Problem) :
    Runs b (fun _ => report problem) h () [.report problem] { problems := [problem] } :=
  runs_event hv trivial fun _ => rfl

theorem runs_push (hv : Valid b h) {place : Section} {op : Op} {operands : List Operand}
    (hplace : home op = place) (he : Event.Allowed b h (.push ⟨op, operands⟩)) :
    Runs b (fun _ => push place op operands) h () [.push ⟨op, operands⟩]
      { log := [⟨op, operands⟩], settled := (Instruction.result? ⟨op, operands⟩).toList } := by
  subst hplace
  refine runs_event hv he fun options => ?_
  simp only [Event.play, Event.summary, List.append_nil]
  rfl

theorem runs_name (hv : Valid b h) {x : Id} (hx : x ∈ handed h) (text : String) :
    Runs b (fun options => nameId options x text) h () [.name x text] { names := [(x, text)] } := by
  refine runs_event hv hx fun options => ?_
  simp only [Event.play, Event.summary, List.append_nil, Event.build, Event.pushed, nameRecords, nameId]
  split <;> rfl

/-- The id that is handed out after a history. -/
theorem fresh_bind (options : Options) (h : List Event) (f : Id → Build α) :
    (fresh >>= f) (after options h) =
      f (nextId h) { after options h with output := (after options h).output.fresh.2 } := by
  rw [nextId, ← issued_after options h]
  rfl

theorem runs_reserve (hv : Valid b h) :
    Runs b (fun _ => fresh) h (nextId h) [.reserve (nextId h)] { reserved := [nextId h] } := by
  refine runs_event hv rfl fun options => (fresh_bind options h pure).trans ?_
  simp only [Event.play, Event.summary, List.append_nil]
  rfl

/-- An id is handed out and defined at once. -/
theorem runs_define (hv : Valid b h) {place : Section} (i : Id → Instruction)
    (hplace : home (i (nextId h)).op = place) (he : Event.Allowed b h (.define (nextId h) (i (nextId h)))) :
    Runs b (fun _ => do
      let x ← fresh
      push place (i x).op (i x).operands
      return x) h (nextId h) [.define (nextId h) (i (nextId h))] { log := [i (nextId h)] } := by
  subst hplace
  refine runs_event hv he fun options => (fresh_bind options h _).trans ?_
  simp only [Event.play, Event.summary, List.append_nil]
  rfl

/-! ### Types that are fetched -/

/-- The events are declarations of types with these keys. -/
def Only (ks : List TypeKey) (es : List Event) : Prop :=
  ∀ e ∈ es, ∃ k ∈ ks, ∃ x op operands, e = .type k x op operands

/-- Nothing but types is declared. -/
theorem Only.summary_eq {ks : List TypeKey} (hes : Only ks es) : Lower.summary es = {} := by
  induction es with
  | nil => rfl
  | cons e es ih =>
      obtain ⟨he, hrest⟩ := List.forall_mem_cons.mp hes
      obtain ⟨k, _, x, op, operands, rfl⟩ := he
      exact ih hrest

theorem Only.known {ks : List TypeKey} (hes : Only ks es) {k : TypeKey} (hk : k ∉ ks) {x : Id} :
    Known (h ++ es) k x ↔ Known h k x := by
  refine known_append.trans (or_iff_left ?_)
  rintro ⟨op, operands, hmem⟩
  obtain ⟨l, hl, y, _, _, heq⟩ := hes _ hmem
  cases heq
  exact hk hl

theorem Valid.look_eq_none {k : TypeKey} (hv : Valid b h) (hk : ∀ x, ¬Known h k x) (options : Options) :
    k.look (after options h) = none := by
  cases hlook : k.look (after options h) with
  | none => rfl
  | some x => exact absurd ((hv.look options).mp hlook) (hk x)

theorem DeclaredFrom.home_eq {k : TypeKey} {op : Op} {operands : List Operand}
    (hd : DeclaredFrom b h k op operands) : home op = .globals := by
  cases hd <;> rfl

/-- Declaring a type and putting it into its table is an event. -/
theorem play_type (k : TypeKey) {op : Op} (operands : List Operand) (hplace : home op = .globals)
    (options : Options) (h : List Event) :
    (Event.type k (nextId h) op operands).play options (after options h) =
      k.store (nextId h) (declare op operands (after options h)).2 ∧
    (declare op operands (after options h)).1 = nextId h := by
  rw [declare, fresh_bind, ← hplace]
  refine ⟨?_, rfl⟩
  simp only [Event.play, Event.summary, List.append_nil]
  rfl

/-- A type is taken from its table or, once its component is there, declared and put there. -/
theorem runs_fetch (hv : Valid b h) {k : TypeKey} {op : Op} (operands : Id → List Operand)
    {component : Build Id} {ks : List TypeKey} {y : Id}
    (hcomponent : Runs b (fun _ => component) h y es {}) (honly : Only ks es) (hk : k ∉ ks)
    (hdeclared : DeclaredFrom b (h ++ es) k op (operands y)) :
    ∃ x es, Runs b (fun _ => k.fetch (component >>= fun y => declare op (operands y))) h x es {} ∧
      Only (k :: ks) es ∧ Known (h ++ es) k x := by
  by_cases hknown : ∃ x, Known h k x
  · obtain ⟨x, hx⟩ := hknown
    refine ⟨x, [], ⟨fun options => ?_, ?_, rfl⟩, List.forall_mem_nil _, ?_⟩
    · rw [TypeKey.fetch_some ((hv.look options).mpr hx), List.append_nil]
    · rwa [List.append_nil]
    · rwa [List.append_nil]
  · rw [not_exists] at hknown
    have hallowed : Event.Allowed b (h ++ es)
        (.type k (nextId (h ++ es)) op (operands y)) :=
      ⟨rfl, fun x hx => hknown x ((honly.known hk).mp hx), hdeclared⟩
    have hadded : Only (k :: ks) (es ++ [.type k (nextId (h ++ es)) op (operands y)]) := by
      refine List.forall_mem_append.mpr ⟨fun e he => ?_, List.forall_mem_singleton.mpr ?_⟩
      · obtain ⟨l, hl, htype⟩ := honly e he
        exact ⟨l, List.mem_cons_of_mem k hl, htype⟩
      · exact ⟨k, List.mem_cons_self, _, _, _, rfl⟩
    refine ⟨nextId (h ++ es), es ++ [.type k (nextId (h ++ es)) op (operands y)],
      ⟨fun options => ?_, ?_, hadded.summary_eq⟩, hadded, ⟨op, operands y, by simp⟩⟩
    · have hrun : (component >>= fun y => declare op (operands y)) (after options h) =
          declare op (operands y) (after options (h ++ es)) := by
        show declare op (operands (component (after options h)).1) (component (after options h)).2 = _
        rw [hcomponent.result options]
      obtain ⟨hplay, hid⟩ := play_type k (operands y) hdeclared.home_eq options (h ++ es)
      rw [TypeKey.fetch_none (hv.look_eq_none hknown options), hrun, ← List.append_assoc, after_snoc,
        hplay, hid]
    · rw [← List.append_assoc]
      exact hcomponent.valid.snoc hallowed

/-- The same for a type without components. -/
theorem runs_fetch_declare (hv : Valid b h) {k : TypeKey} {op : Op} {operands : List Operand}
    (hdeclared : DeclaredFrom b h k op operands) :
    ∃ x es, Runs b (fun _ => k.fetch (declare op operands)) h x es {} ∧ Only [k] es ∧
      Known (h ++ es) k x := by
  have hnone : Runs b (fun _ => (pure default : Build Id)) h default [] {} := runs_pure hv default
  refine runs_fetch hv (fun _ => operands) hnone (List.forall_mem_nil _) (by simp) ?_
  rwa [List.append_nil]

/-! ### Loops -/

section

variable {ρ : Type} {I : List Event → Prop} {R : List Event → α → ρ → Prop} {S : α → ρ → Summary}

/-- A loop that collects results.  `I` is what its turns need and `R` what they lead to; neither is lost
later on. -/
theorem runs_mapM {f : Options → α → Build β} {g : ρ → β} (xs : List α)
    (hI : ∀ h es, I h → I (h ++ es)) (hR : ∀ h es a r, R h a r → R (h ++ es) a r)
    (hturn : ∀ a ∈ xs, ∀ h, Valid b h → I h → ∃ r es,
      Runs b (fun options => f options a) h (g r) es (S a r) ∧ R (h ++ es) a r)
    (hv : Valid b h) (hh : I h) :
    ∃ rs es, Runs b (fun options => xs.mapM (f options)) h (rs.map g) es
      (.sum (List.zipWith S xs rs)) ∧ List.Forall₂ (R (h ++ es)) xs rs := by
  induction xs generalizing h with
  | nil =>
      refine ⟨[], [], ?_, .nil⟩
      simp only [List.mapM_nil]
      exact runs_pure hv []
  | cons a xs ih =>
      obtain ⟨hfirst, hrest⟩ := List.forall_mem_cons.mp hturn
      obtain ⟨r, es, hrun, hr⟩ := hfirst h hv hh
      obtain ⟨rs, more, hruns, hrs⟩ := ih hrest hrun.valid (hI h es hh)
      refine ⟨r :: rs, es ++ (more ++ []), ?_, ?_⟩
      · simp only [List.mapM_cons]
        refine (hrun.bind (hruns.bind (runs_pure hruns.valid _))).congr ?_
        rw [List.zipWith_cons_cons, Summary.sum_cons, Summary.append_empty]
      · rw [List.append_nil, ← List.append_assoc]
        exact .cons (hR _ more a r hr) hrs

/-- A loop whose results are of no interest. -/
theorem runs_forM {f : Options → α → Build Unit} (xs : List α)
    (hI : ∀ h es, I h → I (h ++ es)) (hR : ∀ h es a r, R h a r → R (h ++ es) a r)
    (hturn : ∀ a ∈ xs, ∀ h, Valid b h → I h → ∃ r es,
      Runs b (fun options => f options a) h () es (S a r) ∧ R (h ++ es) a r)
    (hv : Valid b h) (hh : I h) :
    ∃ rs es, Runs b (fun options => xs.forM (f options)) h () es (.sum (List.zipWith S xs rs)) ∧
      List.Forall₂ (R (h ++ es)) xs rs := by
  induction xs generalizing h with
  | nil => exact ⟨[], [], runs_pure hv (), .nil⟩
  | cons a xs ih =>
      obtain ⟨hfirst, hrest⟩ := List.forall_mem_cons.mp hturn
      obtain ⟨r, es, hrun, hr⟩ := hfirst h hv hh
      obtain ⟨rs, more, hruns, hrs⟩ := ih hrest hrun.valid (hI h es hh)
      refine ⟨r :: rs, es ++ more, hrun.andThen hruns, ?_⟩
      rw [← List.append_assoc]
      exact .cons (hR _ more a r hr) hrs

end

end

end Shading.Lower
