import Mathlib.Logic.Hydra
import Shading.Proofs.Include.Exits

/-! # Expansion comes to an end

A reader may have a file for every name, and every file may include another one that is new, so the keys
that were included do not bound an expansion.  What bounds it is the include level: it grows by one from
a directive to the file that it includes, and at the last level there is nothing more to include.

A `Worklist` is an expansion token by token.  A directive puts the tokens of its file on the list, one
level further down, without expanding them, and no count of steps is kept.  Each step replaces a pending
token by finitely many with fewer levels left, so there is no infinite run, even if the reader answers
otherwise at every step (`wellFounded_moves`).  The run of a root ends with the tokens and the state that
its expansion gives (`worksOff`). -/

namespace Shading.Include

/-! ### Token lists -/

theorem expandTokens_nil (s : Setting) (left : Nat) (p : Progress) :
    expandTokens s left [] p = ([], p) := by
  rw [expandTokens_eq]
  rfl

theorem expandTokens_of_ne {t : Token} (ht : t.kind ≠ .directive) (s : Setting) (left : Nat)
    (rest : List Token) (p : Progress) :
    expandTokens s left (t :: rest) p =
      (t :: (expandTokens s left rest p).1, (expandTokens s left rest p).2) := by
  rw [expandTokens_eq, expandWith, if_neg ht]
  rfl

theorem expandTokens_of_eq {t : Token} (ht : t.kind = .directive) (s : Setting) (left : Nat)
    (rest : List Token) (p : Progress) :
    expandTokens s left (t :: rest) p =
      let here := splice s (below s left) t p
      (here.1 ++ (expandTokens s left rest here.2).1, (expandTokens s left rest here.2).2) := by
  rw [expandTokens_eq, expandWith, if_pos ht]
  rfl

/-! ### Worklists -/

/-- An expansion under way. -/
structure Worklist where
  /-- The tokens still to be expanded, each with the include level of its file. -/
  pending : List (Nat × Token)
  output : List Token := []
  progress : Progress
  /-- The files added so far, each with its include level. -/
  added : List (Nat × SourceFile) := []

namespace Worklist

/-- Takes the first pending token: a directive is replaced by the tokens of the file that it includes,
and any other token comes out. -/
def step (s : Setting) (w : Worklist) : Option Worklist :=
  match w.pending with
  | [] => none
  | (level, t) :: rest =>
    if t.kind = .directive then
      let opened := splice s (if includeLevels ≤ level then none else some pure) t w.progress
      let files := opened.2.sources.files.drop w.progress.sources.files.length
      some { w with
        pending := opened.1.map (level + 1, ·) ++ rest
        progress := opened.2
        added := w.added ++ files.map (level + 1, ·) }
    else some { w with pending := rest, output := w.output ++ [t] }

/-- The second comes after the first in some setting, so that the reader may be another one at each
step. -/
def Moves (w v : Worklist) : Prop := ∃ s, w.step s = some v

/-- The second is reached from the first step by step in one setting. -/
def Reaches (s : Setting) : Worklist → Worklist → Prop :=
  Relation.ReflTransGen fun w v => w.step s = some v

/-- The worklist of a root, whose tokens stand at level zero.  All that the expansion of no tokens does
is to mark the root. -/
def start (s : Setting) (root : Nat) (tokens : List Token) (p : Progress) : Worklist where
  pending := tokens.map (0, ·)
  progress := (expandRoot s root [] p).2

/-! ### One step -/

theorem step_of_ne {s : Setting} {w : Worklist} {level : Nat} {t : Token}
    {rest : List (Nat × Token)} (h : w.pending = (level, t) :: rest) (ht : t.kind ≠ .directive) :
    w.step s = some { w with pending := rest, output := w.output ++ [t] } := by
  unfold step
  rw [h]
  exact if_neg ht

/-- The files after a directive, if the included file is not expanded. -/
theorem files_leaves_pure (s : Setting) (p : Progress) (t : Token) (e : Exit) :
    (e.leaves s pure p t).2.sources.files = p.sources.files ++ e.file?.toList := by
  cases e with
  | spliced file => rfl
  | known | failed | unknown => exact (List.append_nil _).symm

/-- A directive is taken by the exit that is due with the levels that are left. -/
theorem step_of_due {s : Setting} {w : Worklist} {level : Nat} {t : Token}
    {rest : List (Nat × Token)} {e : Exit} (h : w.pending = (level, t) :: rest)
    (ht : t.kind = .directive) (hdue : Due s (includeLevels - level) w.progress t e) :
    w.step s = some
      { w with
        pending := (e.leaves s pure w.progress t).1.map (level + 1, ·) ++ rest
        progress := (e.leaves s pure w.progress t).2
        added := w.added ++ e.file?.toList.map (level + 1, ·) } := by
  have hsplice := splice_of_due hdue pure
  simp only [Nat.sub_eq_zero_iff_le] at hsplice
  unfold step
  rw [h]
  dsimp only
  rw [if_pos ht, hsplice, files_leaves_pure, List.drop_left]

/-- A file is included only where there are levels left. -/
theorem level_lt_of_due {s : Setting} {level : Nat} {p : Progress} {t : Token} {file : SourceFile}
    (h : Due s (includeLevels - level) p t (.spliced file)) : level < includeLevels := by
  cases h with
  | spliced _ _ hlevels _ => omega

/-- What a step does: a token comes out, or a directive is taken by the exit that is due. -/
theorem step_cases {s : Setting} {w v : Worklist} (h : w.step s = some v) :
    ∃ level t rest, w.pending = (level, t) :: rest ∧
      (v = { w with pending := rest, output := w.output ++ [t] } ∨
        ∃ e, Due s (includeLevels - level) w.progress t e ∧
          v = { w with
            pending := (e.leaves s pure w.progress t).1.map (level + 1, ·) ++ rest
            progress := (e.leaves s pure w.progress t).2
            added := w.added ++ e.file?.toList.map (level + 1, ·) }) := by
  cases hpending : w.pending with
  | nil => simp [step, hpending] at h
  | cons first rest =>
      obtain ⟨level, t⟩ := first
      refine ⟨level, t, rest, rfl, ?_⟩
      by_cases ht : t.kind = .directive
      · obtain ⟨e, hdue⟩ := exists_due s (includeLevels - level) w.progress t
        rw [step_of_due hpending ht hdue] at h
        exact .inr ⟨e, hdue, (Option.some.inj h).symm⟩
      · rw [step_of_ne hpending ht] at h
        exact .inl (Option.some.inj h).symm

/-! ### No infinite run -/

/-- The levels left of all pending tokens. -/
def weight (w : Worklist) : Multiset Nat := (w.pending.map fun x => includeLevels - x.1 : List Nat)

/-- A step puts finitely many smaller numbers in the place of one. -/
theorem cutExpand_weight {w v : Worklist} (h : w.Moves v) :
    Relation.CutExpand (· < ·) v.weight w.weight := by
  obtain ⟨s, hstep⟩ := h
  obtain ⟨level, t, rest, hpending, hv⟩ := step_cases hstep
  have hweight : w.weight = {includeLevels - level} +
      ((rest.map fun x => includeLevels - x.1 : List Nat) : Multiset Nat) := by
    unfold weight
    rw [hpending, List.map_cons, ← Multiset.cons_coe, Multiset.singleton_add]
  rw [hweight]
  rcases hv with rfl | ⟨e, hdue, rfl⟩
  · refine ⟨0, includeLevels - level, by simp, ?_⟩
    rw [add_zero, add_comm]
    rfl
  · refine ⟨((e.leaves s pure w.progress t).1.map fun _ => includeLevels - (level + 1) : List Nat),
      includeLevels - level, ?_, ?_⟩
    · intro n hn
      obtain ⟨u, hu, rfl⟩ := List.mem_map.mp (Multiset.mem_coe.mp hn)
      cases hfile : e.file? with
      | none =>
          rw [Exit.leaves_of_file?_eq_none hfile] at hu
          cases hu
      | some file =>
          rw [Exit.eq_spliced hfile] at hdue
          have hlevel := level_lt_of_due hdue
          omega
    · simp only [weight, List.map_append, List.map_map, Function.comp_def]
      rw [← Multiset.coe_add, add_comm, add_comm (Multiset.ofList _), ← add_assoc]

theorem wellFounded_moves : WellFounded fun v w : Worklist => w.Moves v :=
  Subrelation.wf (fun h => cutExpand_weight h) (InvImage.wf weight Nat.lt_wfRel.wf.cutExpand)

/-! ### Levels -/

/-- All files that were added since the state `p` are accounted for, each at most 64 include levels below
the root. -/
structure Accounts (p : Progress) (w : Worklist) : Prop where
  files : w.progress.sources.files = p.sources.files ++ w.added.map (·.2)
  levels : ∀ x ∈ w.added, 1 ≤ x.1 ∧ x.1 ≤ 64

theorem Accounts.step {p : Progress} {w v : Worklist} (h : w.Accounts p) (hstep : w.Moves v) :
    v.Accounts p := by
  obtain ⟨s, hstep⟩ := hstep
  obtain ⟨level, t, rest, _, rfl | ⟨e, hdue, rfl⟩⟩ := step_cases hstep
  · exact ⟨h.files, h.levels⟩
  · refine ⟨?_, List.forall_mem_append.mpr ⟨h.levels, ?_⟩⟩
    · rw [files_leaves_pure, h.files]
      simp
    · intro x hx
      obtain ⟨file, hfile, rfl⟩ := List.mem_map.mp hx
      rw [Exit.eq_spliced (Option.mem_toList.mp hfile)] at hdue
      have hlevel := level_lt_of_due hdue
      constructor
      · exact Nat.le_add_left 1 level
      · exact hlevel

theorem Accounts.run {p : Progress} {w v : Worklist} (h : w.Accounts p)
    (hrun : Relation.ReflTransGen Moves w v) : v.Accounts p := by
  induction hrun with
  | refl => exact h
  | tail _ hstep ih => exact ih.step hstep

/-! ### The run of an expansion -/

/-- Tokens with so many levels left are worked off, and come to what their expansion gives. -/
def WorksOff (s : Setting) (left : Nat) : Prop :=
  ∀ (level : Nat), level + left = includeLevels →
    ∀ (tokens : List Token) (rest : List (Nat × Token)) (output : List Token) (p : Progress)
      (added : List (Nat × SourceFile)), ∃ more,
      Reaches s ⟨tokens.map (level, ·) ++ rest, output, p, added⟩
        ⟨rest, output ++ (expandTokens s left tokens p).1, (expandTokens s left tokens p).2, more⟩

theorem worksOff_of_below {s : Setting} {left : Nat}
    (hbelow : ∀ l, left = l + 1 → WorksOff s l) : WorksOff s left := by
  intro level hlevel tokens
  induction tokens with
  | nil =>
      intro rest output p added
      refine ⟨added, ?_⟩
      rw [expandTokens_nil, List.append_nil]
      exact .refl
  | cons t tokens ih =>
      intro rest output p added
      let w : Worklist := ⟨(t :: tokens).map (level, ·) ++ rest, output, p, added⟩
      have hpending : w.pending = (level, t) :: (tokens.map (level, ·) ++ rest) := rfl
      by_cases ht : t.kind = .directive
      · obtain ⟨e, hdue⟩ := exists_due s left p t
        have hleft : includeLevels - level = left := by omega
        have hstep := step_of_due hpending ht (by rw [hleft]; exact hdue)
        rw [expandTokens_of_eq ht, splice_below_of_due hdue]
        cases hfile : e.file? with
        | none =>
            rw [Exit.leaves_of_file?_eq_none hfile] at hstep ⊢
            obtain ⟨more, hrest⟩ := ih rest output _ _
            exact ⟨more, .head hstep hrest⟩
        | some file =>
            obtain rfl := Exit.eq_spliced hfile
            have hpos : left ≠ 0 := by
              cases hdue with
              | spliced _ _ hlevels _ => exact hlevels
            obtain ⟨l, rfl⟩ := Nat.exists_eq_succ_of_ne_zero hpos
            -- first the file, one level further down, and then what follows the directive
            obtain ⟨within, hinner⟩ := hbelow l rfl (level + 1) (by omega)
              (s.tokens p.sources.files.length file) (tokens.map (level, ·) ++ rest) output _ _
            obtain ⟨more, hrest⟩ := ih rest _ _ within
            refine ⟨more, .head hstep (hinner.trans ?_)⟩
            rw [← List.append_assoc]
            exact hrest
      · have hstep : w.step s = _ := step_of_ne hpending ht
        obtain ⟨more, hrest⟩ := ih rest (output ++ [t]) p added
        refine ⟨more, .head hstep ?_⟩
        rw [List.append_assoc] at hrest
        rw [expandTokens_of_ne ht]
        exact hrest

/-- Every expansion is worked off, by induction on the levels left. -/
theorem worksOff (s : Setting) (left : Nat) : WorksOff s left := by
  induction left with
  | zero => exact worksOff_of_below nofun
  | succ l ih =>
      refine worksOff_of_below fun k hk => ?_
      cases hk
      exact ih

/-- The tokens of a root are expanded in the state that the expansion of none leaves, which has the same
files. -/
theorem expandRoot_eq (s : Setting) (root : Nat) (p : Progress) :
    (∀ tokens, expandRoot s root tokens p =
      expandTokens s includeLevels tokens (expandRoot s root [] p).2) ∧
    (expandRoot s root [] p).2.sources = p.sources := by
  obtain ⟨q, hroot, hsources, _, _⟩ := exists_rooted s root p
  have hq : (expandRoot s root [] p).2 = q := by rw [hroot, expandTokens_nil]
  rw [hq]
  exact ⟨hroot, hsources⟩

theorem accounts_start (s : Setting) (root : Nat) (tokens : List Token) (p : Progress) :
    (start s root tokens p).Accounts p := by
  refine ⟨?_, List.forall_mem_nil _⟩
  show (expandRoot s root [] p).2.sources.files = p.sources.files ++ []
  rw [(expandRoot_eq s root p).2, List.append_nil]

/-- A run in one setting is a run. -/
theorem Reaches.run {s : Setting} {w v : Worklist} (h : Reaches s w v) :
    Relation.ReflTransGen Moves w v :=
  Relation.ReflTransGen.mono (fun _ _ hstep => ⟨s, hstep⟩) w v h

/-- **Expansion comes to an end.**  There is no infinite run of steps, whatever setting each step has,
and in every run each file that was added stands at most 64 include levels below the root.  The run of
a root in one setting ends when nothing is pending, with the tokens and the state that its expansion
gives.  An include directive at level 64 that asks for a file whose key was not included comes to one
error, and the file is not read. -/
theorem expandRoot_terminates :
    (WellFounded fun v w : Worklist => w.Moves v) ∧
    (∀ (s : Setting) (root : Nat) (tokens : List Token) (p : Progress),
      (∀ w, Relation.ReflTransGen Moves (start s root tokens p) w → w.Accounts p) ∧
      ∃ v, Reaches s (start s root tokens p) v ∧ v.pending = [] ∧ v.Accounts p ∧
        expandRoot s root tokens p = (v.output, v.progress)) ∧
    ∀ (s : Setting) (w : Worklist) (t : Token) (rest : List (Nat × Token)) (name : String)
      (place : Span), w.pending = (64, t) :: rest → t.kind = .directive →
      AsksAt s.macros t name place → s.reader.includeKey name ∉ w.progress.included →
      w.step s = some { w with
        pending := rest
        progress := { w.progress with
          messages := w.progress.messages ++ unused t ++
            [Message.error place "Include nesting is too deep"]
          queries := w.progress.queries ++ [.includeKey name] } } := by
  refine ⟨wellFounded_moves, ?_, ?_⟩
  · intro s root tokens p
    have haccounts := accounts_start s root tokens p
    refine ⟨fun w hrun => haccounts.run hrun, ?_⟩
    obtain ⟨added, hrun⟩ := worksOff s includeLevels 0 (Nat.zero_add _) tokens [] []
      (expandRoot s root [] p).2 []
    rw [List.append_nil, ← (expandRoot_eq s root p).1] at hrun
    exact ⟨_, hrun, rfl, haccounts.run hrun.run, rfl⟩
  · intro s w t rest name place hpending ht hasks hnew
    rw [step_of_due hpending ht (.tooDeep hasks hnew rfl)]
    simp only [Exit.file?, Option.toList_none, List.map_nil, List.append_nil]
    rfl

/-- A reader that has a file for every name, which includes one with a longer name. -/
def endlessSetting : Setting where
  reader := { read := fun name => .ok s!"#include \"{name}x\"\n" }
  macros := {}
  keep := ClassSet.withoutComments

def endlessDirective : Token := ⟨.directive, ⟨⟨0, 0, 0, 0⟩, ⟨0, 11, 0, 11⟩⟩, "#include \"x\""⟩

/-- The files go on without end, and their expansion comes to one. -/
theorem expandRoot_terminates_endless :
    (∃ v, Reaches endlessSetting (start endlessSetting 0 [endlessDirective] {}) v ∧
      v.pending = [] ∧ v.Accounts {}) ∧
    AsksAt endlessSetting.macros endlessDirective "x" ⟨⟨0, 10, 0, 10⟩, ⟨0, 10, 0, 10⟩⟩ ∧
    step endlessSetting ⟨[(64, endlessDirective)], [], {}, []⟩ = some
      ⟨[], [], ⟨{}, [],
        [Message.error ⟨⟨0, 10, 0, 10⟩, ⟨0, 10, 0, 10⟩⟩ "Include nesting is too deep"],
        [.includeKey "x"]⟩, []⟩ := by
  have harguments : includeArguments? endlessDirective =
      some [⟨.string, ⟨⟨0, 10, 0, 10⟩, ⟨0, 10, 0, 10⟩⟩, "x"⟩] := by
    decide +kernel
  have hasks : AsksAt endlessSetting.macros endlessDirective "x"
      ⟨⟨0, 10, 0, 10⟩, ⟨0, 10, 0, 10⟩⟩ :=
    ⟨_, _, harguments, .inl ⟨rfl, rfl⟩, rfl⟩
  have hunused : unused endlessDirective = [] := by
    unfold unused
    rw [harguments]
  obtain ⟨_, hruns, htooDeep⟩ := expandRoot_terminates
  obtain ⟨_, v, hrun, hpending, haccounts, _⟩ := hruns endlessSetting 0 [endlessDirective] {}
  refine ⟨⟨v, hrun, hpending, haccounts⟩, hasks, ?_⟩
  rw [htooDeep endlessSetting ⟨[(64, endlessDirective)], [], {}, []⟩ endlessDirective [] "x" _ rfl rfl
    hasks List.not_mem_nil, hunused]
  simp only [List.nil_append]

end Worklist

end Shading.Include
