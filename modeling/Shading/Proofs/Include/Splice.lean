import Shading.Include.Expansion
import Shading.Proofs.Token.Coverage

/-! # Expansion splices every file once

`Splices` says which tokens come of a token list without a state to thread: a directive is replaced
by the expansion of the file that it includes, or by nothing, and every file is known by its place in
the list of those added.  The expansion follows it (`expandsTo_expandTokens`); that no key is included
twice and that no token is lost are facts about `Splices` alone. -/

namespace Shading.Include

/-! ### Splicing -/

/-- The number of the file that a token stands in. -/
def fileOf (t : Token) : Nat := t.span.start.file

/-- The tokens that an expansion keeps. -/
def plain (tokens : List Token) : List Token := tokens.filter fun t => t.kind ≠ .directive

namespace Setting

/-- The key that an included file goes by. -/
def key (s : Setting) (f : SourceFile) : String := s.reader.includeKey f.name

/-- The tokens of an included file that has the given number. -/
def tokens (s : Setting) (number : Nat) (f : SourceFile) : List Token :=
  Token.scan f.text (Point.fileStart number) s.keep

end Setting

/-- The directive includes the file: it asks for it by its name, no file with its key was seen before,
and its text can be read. -/
def Includes (s : Setting) (seen : List String) (t : Token) (f : SourceFile) : Prop :=
  (∃ place, (Request.ofDirective s.macros t).target? = some ⟨f.name, place⟩) ∧
    s.key f ∉ seen ∧ s.reader.read f.name = .ok f.text

/-- The directive includes nothing: it asks for no file, or for one that was seen before, that lies too
deep or that cannot be read. -/
def Idle (s : Setting) (levels : Nat) (seen : List String) (t : Token) : Prop :=
  ∀ target, (Request.ofDirective s.macros t).target? = some target →
    s.reader.includeKey target.name ∈ seen ∨ levels = 0 ∨
      ∃ cause, s.reader.read target.name = .error cause

/-- With some include levels left, the keys of `seen` taken and `n` files known, the files that are
added for a token list and the tokens that come of it. -/
inductive Splices (s : Setting) :
    (levels : Nat) → (seen : List String) → (n : Nat) → List Token → List SourceFile →
      List Token → Prop
  | done {levels n : Nat} {seen : List String} : Splices s levels seen n [] [] []
  | keep {levels n : Nat} {seen : List String} {t : Token} {rest out : List Token}
      {added : List SourceFile} (ht : t.kind ≠ .directive)
      (after : Splices s levels seen n rest added out) :
      Splices s levels seen n (t :: rest) added (t :: out)
  | drop {levels n : Nat} {seen : List String} {t : Token} {rest out : List Token}
      {added : List SourceFile} (ht : t.kind = .directive) (hidle : Idle s levels seen t)
      (after : Splices s levels seen n rest added out) :
      Splices s levels seen n (t :: rest) added out
  | insert {levels n : Nat} {seen : List String} {t : Token} {rest here out : List Token}
      {f : SourceFile} {within added : List SourceFile} (ht : t.kind = .directive)
      (hincludes : Includes s seen t f)
      (inner : Splices s levels (seen ++ [s.key f]) (n + 1) (s.tokens n f) within here)
      (after : Splices s (levels + 1) (seen ++ (f :: within).map s.key) (n + (f :: within).length)
        rest added out) :
      Splices s (levels + 1) seen n (t :: rest) (f :: within ++ added) (here ++ out)

/-! ### The expansion splices -/

/-- From one state to the other the files were added, each under its key. -/
structure Adds (s : Setting) (added : List SourceFile) (p q : Progress) : Prop where
  files : q.sources.files = p.sources.files ++ added
  included : q.included = p.included ++ added.map s.key

theorem Adds.nil {s : Setting} {p q : Progress} (hfiles : q.sources = p.sources)
    (hincluded : q.included = p.included) : Adds s [] p q :=
  ⟨by rw [hfiles, List.append_nil], by rw [hincluded, List.map_nil, List.append_nil]⟩

theorem Adds.append {s : Setting} {added more : List SourceFile} {p q r : Progress}
    (h : Adds s added p q) (h' : Adds s more q r) : Adds s (added ++ more) p r :=
  ⟨by rw [h'.files, h.files, List.append_assoc],
    by rw [h'.included, h.included, List.map_append, List.append_assoc]⟩

/-- What becomes of a directive, and of the state. -/
inductive Outcome (s : Setting) (t : Token) (p : Progress) :
    (levels : Nat) → List Token × Progress → Prop
  | idle {levels : Nat} {q : Progress} (hidle : Idle s levels p.included t) (hq : Adds s [] p q) :
      Outcome s t p levels ([], q)
  | included {levels : Nat} {f : SourceFile} {within : List SourceFile} {here : List Token}
      {q : Progress} (hincludes : Includes s p.included t f)
      (inner : Splices s levels (p.included ++ [s.key f]) (p.sources.files.length + 1)
        (s.tokens p.sources.files.length f) within here)
      (hq : Adds s (f :: within) p q) : Outcome s t p (levels + 1) (here, q)

/-- The expansion of token lists splices, from every state. -/
def ExpandsTo (s : Setting) (levels : Nat) (expand : List Token → Expand (List Token)) : Prop :=
  ∀ (tokens : List Token) (p : Progress), ∃ added,
    Splices s levels p.included p.sources.files.length tokens added (expand tokens p).1 ∧
      Adds s added p (expand tokens p).2

/-- The expansion of included files when there are include levels left. -/
def below (s : Setting) : (levels : Nat) → Option (List Token → Expand (List Token))
  | 0 => none
  | levels + 1 => some (expandTokens s levels)

theorem expandTokens_eq (s : Setting) (levels : Nat) :
    expandTokens s levels = expandWith (splice s (below s levels)) := by
  cases levels <;> rfl

theorem splice_of_no_target {s : Setting} {deeper : Option (List Token → Expand (List Token))}
    {t : Token} (h : (Request.ofDirective s.macros t).target? = none) (p : Progress) :
    splice s deeper t p =
      ([], { p with messages := p.messages ++ (Request.ofDirective s.macros t).messages }) := by
  unfold splice
  rw [h]
  rfl

theorem splice_of_target {s : Setting} {deeper : Option (List Token → Expand (List Token))}
    {t : Token} {target : Target} (h : (Request.ofDirective s.macros t).target? = some target)
    (p : Progress) :
    splice s deeper t p = openTarget s deeper target
      { p with messages := p.messages ++ (Request.ofDirective s.macros t).messages } := by
  unfold splice
  rw [h]
  rfl

/-- A file is opened in this order: its key is looked up, the level checked, the text read, and only then
the file added. -/
theorem openTarget_eq (s : Setting) (deeper : Option (List Token → Expand (List Token)))
    (target : Target) (p : Progress) :
    openTarget s deeper target p =
      let asked : Progress := { p with queries := p.queries ++ [.includeKey target.name] }
      if s.reader.includeKey target.name ∈ p.included then ([], asked)
      else
        match deeper with
        | none =>
          ([], { asked with
            messages := p.messages ++ [Problem.tooDeep.message target.place] })
        | some expand =>
          let read : Progress := { asked with queries := asked.queries ++ [.read target.name] }
          match s.reader.read target.name with
          | .error cause =>
            ([], { read with
              messages := p.messages ++ [(Problem.unreadable target.name cause).message target.place] })
          | .ok text =>
            expand (s.tokens p.sources.files.length ⟨target.name, text⟩)
              { read with
                sources := ⟨p.sources.files ++ [⟨target.name, text⟩]⟩
                included := p.included ++ [s.reader.includeKey target.name] } := by
  unfold openTarget
  simp only [report, asked, bind, StateT.bind, modify, modifyGet, MonadStateOf.modifyGet,
    StateT.modifyGet, get, getThe, MonadStateOf.get, StateT.get, pure]
  split
  · rfl
  · cases deeper with
    | none => rfl
    | some expand => cases s.reader.read target.name <;> rfl

/-- What an include directive does, by whether its target was seen, lies too deep or can be read. -/
theorem outcome_openTarget {s : Setting} {levels : Nat} {t : Token} {target : Target}
    {p q : Progress} (hbelow : ∀ l, levels = l + 1 → ExpandsTo s l (expandTokens s l))
    (htarget : (Request.ofDirective s.macros t).target? = some target) (hpq : Adds s [] p q) :
    Outcome s t p levels (openTarget s (below s levels) target q) := by
  -- nothing is included when the one target that the directive asks for is not opened
  have hidle : s.reader.includeKey target.name ∈ p.included ∨ levels = 0 ∨
      (∃ cause, s.reader.read target.name = .error cause) → Idle s levels p.included t := by
    intro h other hother
    rw [htarget] at hother
    rwa [← Option.some.inj hother]
  have hfiles : q.sources.files = p.sources.files := by
    rw [hpq.files, List.append_nil]
  have hincluded : q.included = p.included := by
    rw [hpq.included, List.map_nil, List.append_nil]
  rw [openTarget_eq]
  dsimp only
  by_cases hseen : s.reader.includeKey target.name ∈ q.included
  · rw [if_pos hseen]
    rw [hincluded] at hseen
    exact .idle (hidle (.inl hseen)) ⟨hpq.files, hpq.included⟩
  rw [if_neg hseen]
  rw [hincluded] at hseen
  cases levels with
  | zero => exact .idle (hidle (.inr (.inl rfl))) ⟨hpq.files, hpq.included⟩
  | succ l =>
      cases hread : s.reader.read target.name with
      | error cause => exact .idle (hidle (.inr (.inr ⟨cause, hread⟩))) ⟨hpq.files, hpq.included⟩
      | ok text =>
          let f : SourceFile := ⟨target.name, text⟩
          let opened : Progress :=
            { q with
              sources := ⟨q.sources.files ++ [f]⟩
              included := q.included ++ [s.key f]
              queries := q.queries ++ [.includeKey target.name] ++ [.read target.name] }
          show Outcome s t p (l + 1)
            (expandTokens s l (s.tokens q.sources.files.length f) opened)
          obtain ⟨within, hinner, hadds⟩ :=
            hbelow l rfl (s.tokens q.sources.files.length f) opened
          have hopened : Adds s [f] p opened := by
            refine ⟨?_, ?_⟩
            · rw [← hfiles]
            · rw [← hincluded]
              rfl
          rw [hopened.files, hopened.included, List.length_append] at hinner
          rw [hfiles] at hinner hadds ⊢
          have hincludes : Includes s p.included t f := ⟨⟨target.place, htarget⟩, hseen, hread⟩
          exact .included hincludes hinner (hopened.append hadds)

theorem outcome_splice {s : Setting} {levels : Nat}
    (hbelow : ∀ l, levels = l + 1 → ExpandsTo s l (expandTokens s l)) (t : Token) (p : Progress) :
    Outcome s t p levels (splice s (below s levels) t p) := by
  let reported : Progress :=
    { p with messages := p.messages ++ (Request.ofDirective s.macros t).messages }
  have hreported : Adds s [] p reported := Adds.nil rfl rfl
  cases htarget : (Request.ofDirective s.macros t).target? with
  | none =>
      rw [splice_of_no_target htarget]
      refine .idle ?_ hreported
      intro target h
      rw [htarget] at h
      cases h
  | some target =>
      rw [splice_of_target htarget]
      exact outcome_openTarget hbelow htarget hreported

/-- A list is spliced token by token. -/
theorem expandsTo_expandWith {s : Setting} {levels : Nat} {replace : Token → Expand (List Token)}
    (hreplace : ∀ t p, Outcome s t p levels (replace t p)) :
    ExpandsTo s levels (expandWith replace) := by
  intro tokens
  induction tokens with
  | nil =>
      intro p
      exact ⟨[], .done, Adds.nil rfl rfl⟩
  | cons t rest ih =>
      intro p
      rw [expandWith]
      by_cases ht : t.kind = .directive
      · rw [if_pos ht]
        have houtcome := hreplace t p
        show ∃ added, Splices s levels p.included p.sources.files.length (t :: rest) added
            ((replace t p).1 ++ (expandWith replace rest (replace t p).2).1) ∧
          Adds s added p (expandWith replace rest (replace t p).2).2
        generalize replace t p = outcome at houtcome ⊢
        cases houtcome with
        | @idle _ q hidle hq =>
            obtain ⟨added, hrest, hadds⟩ := ih q
            rw [hq.files, hq.included, List.append_nil, List.map_nil, List.append_nil] at hrest
            exact ⟨added, .drop ht hidle hrest, hq.append hadds⟩
        | @included l f within here q hincludes inner hq =>
            obtain ⟨added, hrest, hadds⟩ := ih q
            rw [hq.files, hq.included, List.length_append] at hrest
            exact ⟨f :: within ++ added, .insert ht hincludes inner hrest, hq.append hadds⟩
      · rw [if_neg ht]
        obtain ⟨added, hrest, hadds⟩ := ih p
        exact ⟨added, .keep ht hrest, hadds⟩

theorem expandsTo_expandTokens (s : Setting) (levels : Nat) :
    ExpandsTo s levels (expandTokens s levels) := by
  induction levels with
  | zero =>
      rw [expandTokens_eq]
      refine expandsTo_expandWith (outcome_splice ?_)
      intro l hl
      cases hl
  | succ l ih =>
      rw [expandTokens_eq]
      refine expandsTo_expandWith (outcome_splice ?_)
      intro k hk
      cases hk
      exact ih

/-! ### What splicing keeps -/

/-- No key is taken twice. -/
theorem Splices.once {s : Setting} {levels n : Nat} {seen : List String} {tokens out : List Token}
    {added : List SourceFile} (h : Splices s levels seen n tokens added out) :
    (added.map s.key).Nodup ∧ seen.Disjoint (added.map s.key) := by
  induction h with
  | done => exact ⟨List.nodup_nil, List.disjoint_nil_right _⟩
  | keep _ _ ih => exact ih
  | drop _ _ _ ih => exact ih
  | @insert _ _ seen _ _ _ _ f within added _ hincludes _ _ ihInner ihAfter =>
      obtain ⟨hinner, hinnerSeen⟩ := ihInner
      obtain ⟨hafter, hafterSeen⟩ := ihAfter
      rw [List.disjoint_append_left] at hinnerSeen hafterSeen
      have hnew : s.key f ∉ within.map s.key := List.singleton_disjoint.mp hinnerSeen.2
      rw [List.map_append, List.nodup_append', List.disjoint_append_right]
      refine ⟨⟨?_, hafter, hafterSeen.2⟩, ?_, hafterSeen.1⟩
      · exact List.nodup_cons.mpr ⟨hnew, hinner⟩
      · exact List.disjoint_cons_right.mpr ⟨hincludes.2.1, hinnerSeen.1⟩

theorem Splices.kind_ne {s : Setting} {levels n : Nat} {seen : List String}
    {tokens out : List Token} {added : List SourceFile}
    (h : Splices s levels seen n tokens added out) : ∀ t ∈ out, t.kind ≠ .directive := by
  induction h with
  | done =>
      intro t ht
      cases ht
  | keep ht _ ih => exact List.forall_mem_cons.mpr ⟨ht, ih⟩
  | drop _ _ _ ih => exact ih
  | insert _ _ _ _ ihInner ihAfter => exact List.forall_mem_append.mpr ⟨ihInner, ihAfter⟩

/-- The tokens that stand in the file with a number: those of the list for the `n` files known
before, and all tokens of an added file. -/
def standing (s : Setting) (n : Nat) (tokens : List Token) (added : List SourceFile) (k : Nat) :
    List Token :=
  if k < n then tokens.filter (fileOf · = k) else (added[k - n]?).elim [] (s.tokens k)

theorem standing_cons {s : Setting} {n : Nat} {t : Token} {rest : List Token}
    {added : List SourceFile} (ht : fileOf t < n) (k : Nat) :
    standing s n (t :: rest) added k =
      if fileOf t = k then t :: standing s n rest added k else standing s n rest added k := by
  unfold standing
  by_cases hk : k < n
  · simp only [hk, if_true, List.filter_cons, decide_eq_true_eq]
  · have hne : fileOf t ≠ k := by omega
    simp only [hk, hne, if_false]

theorem standing_eq_nil {s : Setting} {n k : Nat} {tokens : List Token} {added : List SourceFile}
    (h : k < n) (hne : ∀ t ∈ tokens, fileOf t ≠ k) : standing s n tokens added k = [] := by
  rw [standing, if_pos h, List.filter_eq_nil_iff]
  intro t ht
  simpa using hne t ht

theorem fileOf_of_mem_tokens {s : Setting} {number : Nat} {f : SourceFile} {t : Token}
    (h : t ∈ s.tokens number f) : fileOf t = number :=
  (Scan.files_of_mem_scan h).1

/-- The tokens of an included file, of those that it includes and of what follows are apart. -/
theorem standing_insert {s : Setting} {n : Nat} {f : SourceFile} {rest : List Token}
    {within added : List SourceFile} (hrest : ∀ t ∈ rest, fileOf t < n) (k : Nat) :
    standing s (n + 1) (s.tokens n f) within k ++
        standing s (n + (f :: within).length) rest added k =
      standing s n rest (f :: within ++ added) k := by
  have hlen : (f :: within).length = within.length + 1 := rfl
  rcases Nat.lt_trichotomy k n with hk | rfl | hk
  · -- a file known before: nothing of it was included
    have hinner : standing s (n + 1) (s.tokens n f) within k = [] := by
      refine standing_eq_nil (by omega) fun t ht => ?_
      have := fileOf_of_mem_tokens ht
      omega
    rw [hinner, List.nil_append, standing, standing, if_pos hk, if_pos (by omega)]
  · -- the included file itself
    have hafter : standing s (k + (f :: within).length) rest added k = [] := by
      refine standing_eq_nil (by omega) fun t ht => ?_
      have := hrest t ht
      omega
    rw [hafter, List.append_nil, standing, standing, if_pos (by omega), if_neg (by omega),
      Nat.sub_self, List.filter_eq_self.mpr]
    · rfl
    · intro t ht
      simpa using fileOf_of_mem_tokens ht
  · -- a file added later, within the included file or after it
    have hinner : standing s (n + 1) (s.tokens n f) within k =
        (within[k - (n + 1)]?).elim [] (s.tokens k) := by
      rw [standing, if_neg (by omega)]
    have hwhole : standing s n rest (f :: within ++ added) k =
        ((within ++ added)[k - (n + 1)]?).elim [] (s.tokens k) := by
      have hindex : k - n = k - (n + 1) + 1 := by omega
      rw [standing, if_neg (by omega), hindex, List.cons_append, List.getElem?_cons_succ]
    rw [hinner, hwhole]
    by_cases hwithin : k < n + (f :: within).length
    · have hafter : standing s (n + (f :: within).length) rest added k = [] := by
        refine standing_eq_nil hwithin fun t ht => ?_
        have := hrest t ht
        omega
      rw [hafter, List.append_nil, List.getElem?_append_left (by omega)]
    · have hindex : k - (n + (f :: within).length) = k - (n + 1) - within.length := by omega
      rw [standing, if_neg hwithin, hindex, List.getElem?_eq_none (by omega),
        List.getElem?_append_right (by omega)]
      rfl

theorem plain_append (tokens more : List Token) :
    plain (tokens ++ more) = plain tokens ++ plain more := List.filter_append ..

theorem plain_cons_of_ne {t : Token} (ht : t.kind ≠ .directive) (rest : List Token) :
    plain (t :: rest) = t :: plain rest := List.filter_cons_of_pos (by simpa using ht)

theorem plain_cons_of_eq {t : Token} (ht : t.kind = .directive) (rest : List Token) :
    plain (t :: rest) = plain rest := List.filter_cons_of_neg (by simpa using ht)

theorem plain_standing_cons {s : Setting} {n : Nat} {t : Token} {rest : List Token}
    {added : List SourceFile} (ht : t.kind = .directive) (hfile : fileOf t < n) (k : Nat) :
    plain (standing s n (t :: rest) added k) = plain (standing s n rest added k) := by
  rw [standing_cons hfile]
  split
  · rw [plain_cons_of_eq ht]
  · rfl

/-- Every token but the directives comes out in its place among those of its file. -/
theorem Splices.filter_fileOf {s : Setting} {levels n : Nat} {seen : List String}
    {tokens out : List Token} {added : List SourceFile}
    (h : Splices s levels seen n tokens added out) (hknown : ∀ t ∈ tokens, fileOf t < n) (k : Nat) :
    out.filter (fileOf · = k) = plain (standing s n tokens added k) := by
  induction h with
  | done => simp [standing, plain]
  | @keep _ n _ t rest out added ht _ ih =>
      obtain ⟨hhere, hrest⟩ := List.forall_mem_cons.mp hknown
      rw [standing_cons hhere, List.filter_cons, ih hrest]
      by_cases hfile : fileOf t = k
      · rw [if_pos hfile, if_pos (decide_eq_true hfile), plain_cons_of_ne ht]
      · rw [if_neg hfile, if_neg (by simpa using hfile)]
  | @drop _ n _ t rest out added ht _ _ ih =>
      obtain ⟨hhere, hrest⟩ := List.forall_mem_cons.mp hknown
      rw [plain_standing_cons ht hhere, ih hrest]
  | @insert _ n _ t rest here out f within added ht _ _ _ ihInner ihAfter =>
      obtain ⟨hhere, hrest⟩ := List.forall_mem_cons.mp hknown
      have hinner := ihInner fun u hu => by
        rw [fileOf_of_mem_tokens hu]
        exact Nat.lt_succ_self n
      have hafter := ihAfter fun u hu => Nat.lt_add_right _ (hrest u hu)
      rw [plain_standing_cons ht hhere, ← standing_insert hrest, plain_append, List.filter_append,
        hinner, hafter]

/-! ### Several roots -/

/-- One expansion of a root: what it was given, and what came of it. -/
structure Run where
  root : Nat
  tokens : List Token
  before : Progress
  output : List Token
  after : Progress

namespace Run

/-- The files that the run added. -/
def added (r : Run) : List SourceFile := r.after.sources.files.drop r.before.sources.files.length

/-- The key of the root, if there is such a file. -/
def rootKey? (s : Setting) (r : Run) : Option String :=
  (r.before.sources.name? r.root).map s.reader.rootKey

/-- No file that the second run added has the key of the root of the first. -/
def KeepsOut (s : Setting) (r later : Run) : Prop :=
  ∀ f ∈ later.added, r.rootKey? s ≠ some (s.key f)

/-- The run splices its tokens, with the keys taken of all that was included before and of its root,
and its files are added to those known. -/
structure Spliced (s : Setting) (r : Run) : Prop where
  files : r.after.sources.files = r.before.sources.files ++ r.added
  included : r.after.included =
    r.before.included ++ (r.rootKey? s).toList ++ r.added.map s.key
  splices : Splices s includeLevels (r.before.included ++ (r.rootKey? s).toList)
    r.before.sources.files.length r.tokens r.added r.output

end Run

/-- Roots expanded one after the other, each from the state that the one before it left. -/
def runs (s : Setting) : Progress → List (Nat × List Token) → List Run
  | _, [] => []
  | p, (root, tokens) :: rest =>
    let result := expandRoot s root tokens p
    ⟨root, tokens, p, result.1, result.2⟩ :: runs s result.2 rest

/-- The state in which the tokens of a root are expanded, whatever they are. -/
theorem exists_rooted (s : Setting) (root : Nat) (p : Progress) :
    ∃ q : Progress,
      (∀ tokens, expandRoot s root tokens p = expandTokens s includeLevels tokens q) ∧
      q.sources = p.sources ∧ q.messages = p.messages ∧
      q.included = p.included ++ ((p.sources.name? root).map s.reader.rootKey).toList := by
  unfold expandRoot
  simp only [bind, StateT.bind, get, getThe, MonadStateOf.get, StateT.get, pure]
  cases p.sources.name? root with
  | none => exact ⟨p, fun _ => rfl, rfl, rfl, (List.append_nil _).symm⟩
  | some name =>
      let rooted : Progress :=
        { p with
          included := p.included ++ [s.reader.rootKey name]
          queries := p.queries ++ [.rootKey name] }
      exact ⟨rooted, fun _ => rfl, rfl, rfl, rfl⟩

theorem Run.spliced (s : Setting) (root : Nat) (tokens : List Token) (p : Progress) :
    Run.Spliced s
      ⟨root, tokens, p, (expandRoot s root tokens p).1, (expandRoot s root tokens p).2⟩ := by
  obtain ⟨q, hroot, hsources, _, hincluded⟩ := exists_rooted s root p
  obtain ⟨added, hsplices, hadds⟩ := expandsTo_expandTokens s includeLevels tokens q
  rw [← hroot, hsources, hincluded] at hsplices
  rw [← hroot] at hadds
  have hfiles := hadds.files
  rw [hsources] at hfiles
  have hadded : (expandRoot s root tokens p).2.sources.files.drop p.sources.files.length = added := by
    rw [hfiles, List.drop_left]
  refine ⟨?_, ?_, ?_⟩
  · rw [Run.added, hadded, hfiles]
  · rw [Run.added, hadded, hadds.included, hincluded]
    rfl
  · rw [Run.added, hadded]
    exact hsplices

theorem spliced_of_mem_runs {s : Setting} {roots : List (Nat × List Token)} {p : Progress} {r : Run}
    (h : r ∈ runs s p roots) : r.Spliced s := by
  induction roots generalizing p with
  | nil => cases h
  | cons head rest ih =>
      obtain ⟨root, tokens⟩ := head
      rcases List.mem_cons.mp h with rfl | h
      · exact Run.spliced s root tokens p
      · exact ih h

/-- A run includes nothing under the key of its own root. -/
theorem Run.Spliced.keepsOut {s : Setting} {r : Run} (h : r.Spliced s) : r.KeepsOut s r := by
  intro f hf hkey
  have hseen := (List.disjoint_append_left.mp h.splices.once.2).2
  refine hseen (a := s.key f) ?_ (List.mem_map_of_mem hf)
  rw [hkey]
  exact List.mem_singleton_self _

/-- Over any number of runs no key is included twice, none that was taken at the start is included,
and no later run includes the root of an earlier one. -/
theorem runs_once (s : Setting) (roots : List (Nat × List Token)) (p : Progress) :
    ((runs s p roots).flatMap fun r => r.added.map s.key).Nodup ∧
      p.included.Disjoint ((runs s p roots).flatMap fun r => r.added.map s.key) ∧
      (runs s p roots).Pairwise (Run.KeepsOut s) := by
  induction roots generalizing p with
  | nil => exact ⟨List.nodup_nil, List.disjoint_nil_right _, List.Pairwise.nil⟩
  | cons head rest ih =>
      obtain ⟨root, tokens⟩ := head
      rw [runs]
      have hrun := Run.spliced s root tokens p
      obtain ⟨hnodup, hdisjoint, hpairwise⟩ := ih (expandRoot s root tokens p).2
      generalize runs s (expandRoot s root tokens p).2 rest = later at hnodup hdisjoint hpairwise ⊢
      obtain ⟨honce, hseen⟩ := hrun.splices.once
      rw [hrun.included, List.disjoint_append_left, List.disjoint_append_left] at hdisjoint
      obtain ⟨⟨hbefore, hroot⟩, hadded⟩ := hdisjoint
      rw [List.flatMap_cons, List.nodup_append', List.disjoint_append_right]
      refine ⟨⟨honce, hnodup, hadded⟩, ⟨(List.disjoint_append_left.mp hseen).1, hbefore⟩,
        List.pairwise_cons.mpr ⟨?_, hpairwise⟩⟩
      intro r hr f hf hkey
      refine hroot (a := s.key f) ?_ (List.mem_flatMap.mpr ⟨r, hr, List.mem_map_of_mem hf⟩)
      rw [hkey]
      exact List.mem_singleton_self _

/-- **Every file is spliced in once.**  However many roots are expanded one after the other, no two
files are included under one key and none under the key of a root that was already expanded.  Each
run splices its tokens, no directive is left in its output, and, if its tokens stand in files known
before, every file that it added comes out whole and in order. -/
theorem runs_splice_once (s : Setting) (sources : SourceMap) (roots : List (Nat × List Token)) :
    let history := runs s { sources } roots
    (history.flatMap fun r => r.added.map s.key).Nodup ∧
      history.Pairwise (Run.KeepsOut s) ∧
      ∀ r ∈ history, r.KeepsOut s r ∧ r.Spliced s ∧ (∀ t ∈ r.output, t.kind ≠ .directive) ∧
        ((∀ t ∈ r.tokens, fileOf t < r.before.sources.files.length) →
          ∀ i f, r.added[i]? = some f →
            let number := r.before.sources.files.length + i
            r.output.filter (fileOf · = number) = plain (s.tokens number f)) := by
  intro history
  obtain ⟨hnodup, _, hpairwise⟩ := runs_once s roots { sources }
  refine ⟨hnodup, hpairwise, ?_⟩
  intro r hr
  have hrun : r.Spliced s := spliced_of_mem_runs hr
  refine ⟨hrun.keepsOut, hrun, hrun.splices.kind_ne, ?_⟩
  intro hknown i f hf number
  rw [hrun.splices.filter_fileOf hknown, standing, if_neg (by omega), Nat.add_sub_cancel_left, hf]
  rfl

/-- Two files that include each other and the root, one of them under two names and by a macro, and a
file that is not there. -/
def sharedSetting : Setting where
  reader := {
    read := fun name =>
      if name = "./a" then .ok "#include \"b\"\nin_a\n#include \"root\"\n"
      else if name = "b" then .ok "#include A\nin_b"
      else if name = "c" then .ok "in_c"
      else .error .notFound
    includeKey := fun name => if name = "./a" then "a" else name }
  macros := .ofList [("A", "a")]
  keep := .scanned true

def sharedSources : SourceMap :=
  ⟨[⟨"root", "#include \"./a\"\nmain\n#include \"gone\"\n#include A\nend"⟩,
    ⟨"other", "#include \"b\"\n#include \"c\"\nlast"⟩]⟩

/-- Both files of the map as roots. -/
def sharedRoots : List (Nat × List Token) :=
  sharedSources.files.mapIdx fun i f => (i, sharedSetting.tokens i f)

theorem runs_splice_once_shared :
    let history := runs sharedSetting { sources := sharedSources } sharedRoots
    history.map (fun r => r.output.map (·.text)) =
        [["in_b", "in_a", "main", "end"], ["in_c", "last"]] ∧
      (∀ r ∈ history, ∀ t ∈ r.tokens, fileOf t < r.before.sources.files.length) ∧
      ∀ r ∈ history, ∀ i f, r.added[i]? = some f →
        r.output.filter (fileOf · = r.before.sources.files.length + i) =
          plain (sharedSetting.tokens (r.before.sources.files.length + i) f) := by
  intro history
  have hknown : ∀ r ∈ history, ∀ t ∈ r.tokens, fileOf t < r.before.sources.files.length := by
    decide +kernel
  refine ⟨by decide +kernel, hknown, ?_⟩
  intro r hr
  exact ((runs_splice_once sharedSetting sharedSources sharedRoots).2.2 r hr).2.2.2 (hknown r hr)

end Shading.Include
