import Shading.Proofs.Grammar.Building
import Shading.Stage

/-! # The verdict of the front end

The stages of the front end are run one after another, each on what the one before it made, up to
the first that reports an error (`course` is the same run without the stop).  So there is a tree
exactly if no error was reported, and all errors of a run that failed are those of the stage it
failed in (`frontEnd_verdict`).  A tree that was parsed without an error holds no stand-in, because
every stand-in is paid for by a report. -/

namespace Shading

namespace Staged

variable {α : Type} {s : Staged α}

theorem errored_eq_false : s.errored = false ↔ ∀ m ∈ s.messages, m.isError = false := by
  simp [errored]

theorem errored_eq_true : s.errored = true ↔ ∃ m ∈ s.messages, m.isError = true := by
  simp [errored]

end Staged

/-! ### The stages without a stop -/

/-- The stages before a stage, in order. -/
def Stage.before (stage : Stage) : List Stage := (Named.all : List Stage).takeWhile (· ≠ stage)

@[simp] theorem Stage.before_tokenize : Stage.tokenize.before = [] := rfl

@[simp] theorem Stage.before_preprocess : Stage.preprocess.before = [.tokenize] := rfl

@[simp] theorem Stage.before_parse : Stage.parse.before = [.tokenize, .preprocess] := rfl

@[simp] theorem Stage.before_transpile :
    Stage.transpile.before = [.tokenize, .preprocess, .parse] := rfl

/-- What the stages of the front end make and report, each on what the one before it made. -/
structure Course where
  scanned : Staged (List Token)
  expanded : Staged (List Token)
  parsed : Staged Node

/-- The stages run to the end, whatever they report. -/
def course (reader : Reader) (macros : MacroTable) (comments : Bool) (sources : SourceMap)
    (file : Nat) : Course :=
  let scanned := tokenizeFile sources file comments
  let expanded := (expandFile reader macros sources file scanned.value).1
  ⟨scanned, expanded, parseTokens expanded.value⟩

/-- What a stage reports.  Transpiling is not part of the front end. -/
def Course.reports (c : Course) : Stage → List Message
  | .tokenize => c.scanned.messages
  | .preprocess => c.expanded.messages
  | .parse => c.parsed.messages
  | .transpile => []

/-- No stage before the given one reports an error. -/
def Course.Passes (c : Course) (stage : Stage) : Prop :=
  ∀ earlier ∈ stage.before, ∀ m ∈ c.reports earlier, m.isError = false

/-- How a run can end: after a stage that reported the first error, or after all stages. -/
inductive Course.Ends (c : Course) : Except Stage Node → List Message → Prop
  | failed {stage : Stage} (hpasses : c.Passes stage)
      (herror : ∃ m ∈ c.reports stage, m.isError = true) :
      c.Ends (.error stage) ((stage.before ++ [stage]).flatMap c.reports)
  | passed (hpasses : c.Passes .transpile) :
      c.Ends (.ok c.parsed.value) (Stage.transpile.before.flatMap c.reports)

/-- There is a tree at the end exactly if no error was reported on the way. -/
theorem Course.Ends.ok_iff {c : Course} {result : Except Stage Node} {messages : List Message}
    (h : c.Ends result messages) :
    (∃ tree, result = .ok tree) ↔ ∀ m ∈ messages, m.isError = false := by
  cases h with
  | @failed stage _ herror =>
      obtain ⟨m, hm, hmerror⟩ := herror
      refine iff_of_false nofun fun hnone => ?_
      have hmem : m ∈ (stage.before ++ [stage]).flatMap c.reports :=
        List.mem_flatMap.mpr ⟨stage, by simp, hm⟩
      exact Bool.noConfusion ((hnone m hmem).symm.trans hmerror)
  | passed hpasses =>
      refine iff_of_true ⟨_, rfl⟩ fun m hm => ?_
      obtain ⟨stage, hstage, hm⟩ := List.mem_flatMap.mp hm
      exact hpasses stage hstage m hm

/-- The result and the messages of a course that stops after the first stage with an error. -/
def Course.stop (c : Course) : Except Stage Node × List Message :=
  if c.scanned.errored then (.error .tokenize, c.scanned.messages)
  else if c.expanded.errored then (.error .preprocess, c.scanned.messages ++ c.expanded.messages)
  else (c.parsed.result .parse, c.scanned.messages ++ c.expanded.messages ++ c.parsed.messages)

theorem Course.ends_stop (c : Course) : c.Ends c.stop.1 c.stop.2 := by
  unfold stop
  cases hscanned : c.scanned.errored with
  | true =>
      have hends : c.Ends (.error .tokenize) _ :=
        .failed (by simp [Passes]) (Staged.errored_eq_true.mp hscanned)
      simpa [reports] using hends
  | false =>
      have htokenize := Staged.errored_eq_false.mp hscanned
      cases hexpanded : c.expanded.errored with
      | true =>
          have hends : c.Ends (.error .preprocess) _ :=
            .failed (by simpa [Passes, reports] using htokenize)
              (Staged.errored_eq_true.mp hexpanded)
          simpa [reports] using hends
      | false =>
          have hpreprocess := Staged.errored_eq_false.mp hexpanded
          cases hparsed : c.parsed.errored with
          | true =>
              have hends : c.Ends (.error .parse) _ :=
                .failed (by simpa [Passes] using ⟨htokenize, hpreprocess⟩)
                  (Staged.errored_eq_true.mp hparsed)
              simpa [reports, Staged.result, hparsed] using hends
          | false =>
              have hparse := Staged.errored_eq_false.mp hparsed
              have hends : c.Ends (.ok c.parsed.value) _ :=
                .passed (by simpa [Passes] using ⟨htokenize, hpreprocess, hparse⟩)
              simpa [reports, Staged.result, hparsed] using hends

variable (reader : Reader) (macros : MacroTable) (comments : Bool) (sources : SourceMap)
  (file : Nat)

/-- The front end is the course of its stages up to the first error. -/
theorem ends_frontEnd :
    (course reader macros comments sources file).Ends
      (frontEnd reader macros comments sources file).result
      (frontEnd reader macros comments sources file).messages := by
  have hstop : ((frontEnd reader macros comments sources file).result,
      (frontEnd reader macros comments sources file).messages) =
        (course reader macros comments sources file).stop := by
    unfold frontEnd Course.stop course Staged.result
    grind
  rw [Prod.ext_iff] at hstop
  have hends := (course reader macros comments sources file).ends_stop
  rwa [← hstop.1, ← hstop.2] at hends

/-- A tree that was parsed without an error holds no stand-in. -/
theorem kind_ne_unknown_of_parse {tokens : List Token}
    (h : ∀ m ∈ (parse tokens).2, m.isError = false) :
    ∀ entry ∈ (parse tokens).1.preorder, entry.2.kind ≠ .unknown := by
  have hmessages : (parse tokens).2 = [] := List.eq_nil_iff_forall_not_mem.mpr fun m hm =>
    Bool.eq_false_iff.mp (h m hm) (Grammar.isError_of_mem_parse hm)
  have hnone : (parse tokens).1.standIns = 0 := by
    have hpaid := (Grammar.isBuilt_parse tokens).standIns
    rwa [hmessages, List.length_nil, Nat.le_zero] at hpaid
  intro entry hentry
  simpa using List.countP_eq_zero.mp hnone entry hentry

/-- **The verdict of the front end.**  There is a tree exactly if no error was reported; the tree is
what parsing made and holds no stand-in.  If a stage failed, the messages are those of the stages up
to it, the stages before it reported no error and it did. -/
theorem frontEnd_verdict :
    let run := frontEnd reader macros comments sources file
    let c := course reader macros comments sources file
    ((∃ tree, run.result = .ok tree) ↔ ∀ m ∈ run.messages, m.isError = false) ∧
      (∀ tree, run.result = .ok tree →
        tree = c.parsed.value ∧ run.messages = Stage.transpile.before.flatMap c.reports ∧
          ∀ entry ∈ tree.preorder, entry.2.kind ≠ .unknown) ∧
      ∀ stage, run.result = .error stage →
        run.messages = (stage.before ++ [stage]).flatMap c.reports ∧
          (∀ earlier ∈ stage.before, ∀ m ∈ c.reports earlier, m.isError = false) ∧
          ∃ m ∈ c.reports stage, m.isError = true := by
  intro run c
  have hends : c.Ends run.result run.messages := ends_frontEnd reader macros comments sources file
  refine ⟨hends.ok_iff, ?_, ?_⟩
  · intro tree hresult
    rw [hresult] at hends
    generalize run.messages = messages at hends
    cases hends with
    | passed hpasses =>
        have hparse : ∀ m ∈ c.parsed.messages, m.isError = false := hpasses .parse (by simp)
        exact ⟨rfl, rfl, kind_ne_unknown_of_parse hparse⟩
  · intro stage hresult
    rw [hresult] at hends
    generalize run.messages = messages at hends
    cases hends with
    | failed hpasses herror => exact ⟨rfl, hpasses, herror⟩

/-- The tree and its messages, by the productions that can be evaluated. -/
theorem parseTokens_eq : parseTokens = fun tokens =>
    ⟨(Grammar.programUnit (Grammar.pastEnd tokens) tokens).result,
      (Grammar.programUnit (Grammar.pastEnd tokens) tokens).messages⟩ := by
  funext tokens
  rw [parseTokens, Parser.parse_eq]

/-- One file can be read, and no other. -/
def singleReader : Reader where
  read := fun name => if name = "a" then .ok "T g(T x);" else .error .notFound

/-- A file with an include and a directive that is warned about; `index` stands in an expression. -/
def indexedSources (index : String) : SourceMap :=
  ⟨[⟨"root", "#include \"a\"\n#pragma once\nT f(T x) \x7b return g(x[" ++ index ++ "]); \x7d"⟩]⟩

theorem frontEnd_verdict_indexed :
    (∃ tree, (frontEnd singleReader {} false (indexedSources "1") 0).result = .ok tree ∧
        ∀ entry ∈ tree.preorder, entry.2.kind ≠ .unknown) ∧
      (frontEnd singleReader {} false (indexedSources "") 0).result = .error .parse ∧
      (frontEnd singleReader {} false (indexedSources "") 0).messages.map (·.severity) =
        [.warning, .error] := by
  obtain ⟨hwhole, htree, _⟩ := frontEnd_verdict singleReader {} false (indexedSources "1") 0
  obtain ⟨hbroken, _, hstage⟩ := frontEnd_verdict singleReader {} false (indexedSources "") 0
  have hclean : ∀ m ∈ (frontEnd singleReader {} false (indexedSources "1") 0).messages,
      m.isError = false := by
    rw [frontEnd, parseTokens_eq]
    decide +kernel
  have hseverities : (frontEnd singleReader {} false (indexedSources "") 0).messages.map (·.severity) =
      [.warning, .error] := by
    rw [frontEnd, parseTokens_eq]
    decide +kernel
  obtain ⟨tree, hresult⟩ := hwhole.mpr hclean
  refine ⟨⟨tree, hresult, (htree tree hresult).2.2⟩, ?_, hseverities⟩
  cases hrun : (frontEnd singleReader {} false (indexedSources "") 0).result with
  | ok tree =>
      have hnone := hbroken.mp ⟨tree, hrun⟩
      rw [frontEnd, parseTokens_eq] at hnone
      exact absurd hnone (by decide +kernel)
  | error stage =>
      obtain ⟨_, _, herror⟩ := hstage stage hrun
      cases stage with
      | parse => rfl
      | tokenize => exact absurd herror (by decide +kernel)
      | preprocess => exact absurd herror (by decide +kernel)
      | transpile => exact absurd herror (by decide +kernel)

end Shading
