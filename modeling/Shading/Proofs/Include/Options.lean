import Shading.Proofs.Include.Reports
import Shading.Proofs.Token.Lines

/-! # What is kept of each file

Whether comments are kept is asked for once for a run, but only the scan of the root is told.  The
expansion scans the files that it adds without comments, whatever was asked for (`expandFile_tokens`).
So with comments asked for, those of the root are kept and those of included files are lost
(`remarks_lost`). -/

namespace Shading.Include

/-- The tokens of a file stand in it, and there are none if there is no such file. -/
theorem fileOf_of_mem_tokenizeFile {sources : SourceMap} {file : Nat} {comments : Bool} {t : Token}
    (h : t ∈ (tokenizeFile sources file comments).value) :
    fileOf t = file ∧ file < sources.files.length := by
  refine ⟨(Scan.files_of_mem_scan h).1, ?_⟩
  by_contra hlength
  have hnone : sources.text? file = none := by
    rw [SourceMap.text?, SourceMap.get?, List.getElem?_eq_none (Nat.le_of_not_lt hlength),
      Option.map_none]
  rw [tokenizeFile, hnone] at h
  cases h

/-- The tokens of a text are the same with and without comments exactly if it has none. -/
theorem plain_scan_eq_iff (text : String) (start : Point) (comments : Bool) :
    plain (Token.scan text start (ClassSet.scanned false)) =
        plain (Token.scan text start (ClassSet.scanned comments)) ↔
      comments = false ∨
        ∀ t ∈ Token.scan text start (ClassSet.scanned true), t.kind.isComment = false := by
  cases comments with
  | false => simp
  | true =>
      have hfilter (tokens : List Token) (p : Token → Bool) :
          plain (tokens.filter p) = (plain tokens).filter p := List.filter_comm ..
      rw [Scan.scan_without_comments, hfilter, List.filter_eq_self]
      constructor
      · intro h
        right
        intro t ht
        by_cases hkind : t.kind = .directive
        · rw [hkind]
          rfl
        · simpa using h t (List.mem_filter.mpr ⟨ht, decide_eq_true hkind⟩)
      · rintro (h | h) t ht
        · cases h
        · simpa using h t (List.mem_of_mem_filter ht)

/-- **What is kept of each file.**  In the tokens of an expanded file, those of the file itself are the
ones that were asked for, without the directives.  Those of an included file are the ones that a scan
without comments gives, without the directives, whether comments were asked for or not. -/
theorem expandFile_tokens {reader : Reader} {macros : MacroTable} {comments : Bool}
    {sources : SourceMap} {file : Nat} {run : Staged (List Token) × SourceMap}
    (hrun : expandFile reader macros sources file (tokenizeFile sources file comments).value = run) :
    run.1.value.filter (fileOf · = file) = plain (tokenizeFile sources file comments).value ∧
      ∀ number f, sources.files.length ≤ number → run.2.get? number = some f →
        let own := run.1.value.filter (fileOf · = number)
        own = plain (Token.scan f.text (Point.fileStart number) (ClassSet.scanned false)) ∧
          (own = plain (Token.scan f.text (Point.fileStart number) (ClassSet.scanned comments)) ↔
            comments = false ∨ ∀ t ∈ Token.scan f.text (Point.fileStart number) (ClassSet.scanned true),
              t.kind.isComment = false) := by
  obtain ⟨added, hfiles, hsplices, _⟩ :=
    exists_expandFile reader macros sources file (tokenizeFile sources file comments).value
  rw [hrun] at hfiles hsplices
  have hknown : ∀ t ∈ (tokenizeFile sources file comments).value,
      fileOf t < sources.files.length := by
    intro t ht
    obtain ⟨hfile, hlt⟩ := fileOf_of_mem_tokenizeFile ht
    rwa [hfile]
  refine ⟨?_, ?_⟩
  · by_cases hlt : file < sources.files.length
    · rw [hsplices.filter_fileOf hknown, standing, if_pos hlt, List.filter_eq_self.mpr]
      intro t ht
      exact decide_eq_true (fileOf_of_mem_tokenizeFile ht).1
    · -- no file, no tokens, and nothing comes of them
      have hnil : (tokenizeFile sources file comments).value = [] :=
        List.eq_nil_iff_forall_not_mem.mpr fun t ht => hlt (fileOf_of_mem_tokenizeFile ht).2
      rw [hnil] at hsplices ⊢
      generalize run.1.value = out at hsplices
      cases hsplices
      rfl
  · intro number f hnumber hf own
    have hadded : added[number - sources.files.length]? = some f := by
      rwa [SourceMap.get?, hfiles, List.getElem?_append_right hnumber] at hf
    have hown : own = plain (Token.scan f.text (Point.fileStart number) (ClassSet.scanned false)) := by
      simp only [own]
      rw [hsplices.filter_fileOf hknown, standing, if_neg (Nat.not_lt.mpr hnumber), hadded]
      rfl
    refine ⟨hown, ?_⟩
    rw [hown]
    exact plain_scan_eq_iff f.text (Point.fileStart number) comments

/-- A file with two comments, that includes one without any. -/
def remarkedFile : SourceFile := ⟨"a", "// c\nx /* d */\n#include \"b\"\n"⟩

def remarkedReader : Reader where
  read name :=
    if name = "a" then .ok remarkedFile.text else if name = "b" then .ok "y" else .error .notFound

def remarkedSources : SourceMap := ⟨[⟨"root", "#include \"a\"\n// e\nz"⟩]⟩

/-- The root and what it includes, with comments asked for. -/
def remarkedRun : Staged (List Token) × SourceMap :=
  expandFile remarkedReader {} remarkedSources 0 (tokenizeFile remarkedSources 0 true).value

theorem expandFile_tokens_remarked :
    remarkedRun.1.value.map (fun t => (fileOf t, t.text)) =
        [(1, "x"), (2, "y"), (0, "// e"), (0, "z")] ∧
      remarkedRun.1.value.filter (fileOf · = 0) = plain (tokenizeFile remarkedSources 0 true).value ∧
      remarkedRun.2.get? 1 = some remarkedFile ∧
      remarkedRun.1.value.filter (fileOf · = 1) =
        plain (Token.scan remarkedFile.text (Point.fileStart 1) (ClassSet.scanned false)) := by
  have hrun : expandFile remarkedReader {} remarkedSources 0
      (tokenizeFile remarkedSources 0 true).value = remarkedRun := by
    rw [remarkedRun]
  have hfile : remarkedRun.2.get? 1 = some remarkedFile := by decide +kernel
  obtain ⟨hroot, hincluded⟩ := expandFile_tokens hrun
  exact ⟨by decide +kernel, hroot, hfile, (hincluded 1 remarkedFile (by decide) hfile).1⟩

/-- The comments of an included file are lost although they were asked for. -/
theorem remarks_lost :
    remarkedRun.2.get? 1 = some remarkedFile ∧
      remarkedRun.1.value.filter (fileOf · = 1) ≠
        plain (Token.scan remarkedFile.text (Point.fileStart 1) (ClassSet.scanned true)) :=
  ⟨by decide +kernel, by decide +kernel⟩

end Shading.Include
