import Shading.Proofs.Grammar.Phrases
import Shading.Proofs.Parser.Follows

/-! # Ways through the tokens, and places among them

What is known of where a production goes is of two sorts.  As long as it reports nothing it takes tokens
one by one, and a relation between the tokens and what is left of them can be followed along that way
(`Crossing`, and `Bridging` where there are semicolons and braces).  After a problem tokens are skipped as
well, and what can be said is that certain places are never left (`Enclosure`, `Hereditary`). -/

namespace Shading.Grammar

variable {tokens mid rest : List Token} {t : Token}

/-! ### Tokens within statements -/

/-- The token is neither a brace nor a semicolon. -/
def Plain (t : Token) : Prop := ∀ c ∈ ['{', '}', ';'], t.isSymbol c = false

theorem plain_of_isSymbol {c : Char} (h : t.isSymbol c = true) (hc : c ∉ ['{', '}', ';']) : Plain t :=
  fun _ hd => Bool.eq_false_iff.mpr fun ht => hc (isSymbol_unique ht h ▸ hd)

theorem plain_of_isName (h : isName t = true) : Plain t := fun c _ => isSymbol_of_isName h c

theorem plain_of_isQualifier (h : isQualifier t = true) : Plain t := fun _ _ =>
  Bool.eq_false_iff.mpr fun hsymbol => by simp [isQualifier_of_isSymbol hsymbol] at h

theorem plain_of_isWord {word : String} (h : t.isWord word = true) : Plain t := fun _ _ =>
  Bool.eq_false_iff.mpr fun hsymbol => by simp [isWord_of_isSymbol hsymbol] at h

theorem plain_of_literalKind? {kind : NodeKind} (h : literalKind? t = some kind) : Plain t := fun _ _ =>
  Bool.eq_false_iff.mpr fun hsymbol => by simp [literalKind?_of_isSymbol hsymbol] at h

theorem plain_of_isSign (h : isSign t = true) : Plain t := by
  simp only [isSign, Bool.or_eq_true] at h
  rcases h with (h | h) | h
  all_goals exact plain_of_isSymbol h (by decide)

/-! ### Ways -/

/-- A relation that holds between tokens and what is left of them if the tokens between are plain. -/
class Crossing (W : List Token → List Token → Prop) : Prop where
  refl : ∀ tokens, W tokens tokens
  trans : ∀ {tokens mid rest}, W tokens mid → W mid rest → W tokens rest
  plain : ∀ {t}, Plain t → ∀ rest, W (t :: rest) rest

/-- It also holds across semicolons, and across braces if it does across what they enclose. -/
class Bridging (W : List Token → List Token → Prop) : Prop extends Crossing W where
  semicolon : ∀ {t}, t.isSymbol ';' = true → ∀ rest, W (t :: rest) rest
  braces : ∀ {opening closing mid rest}, opening.isSymbol '{' = true → closing.isSymbol '}' = true →
    W mid (closing :: rest) → W (opening :: mid) rest

/-- Nothing is known of the way. -/
def AnyWay (_ _ : List Token) : Prop := True

instance : Bridging AnyWay where
  refl _ := trivial
  trans _ _ := trivial
  plain _ _ := trivial
  semicolon _ _ := trivial
  braces _ _ _ := trivial

/-! ### Skipping -/

/-- The number of open brackets after a token. -/
def tracked (depth : Nat) (t : Token) : Nat :=
  if isOpener t then depth + 1 else if isCloser t then depth - 1 else depth

/-- A function that skips tokens: short of a brace it stops before or behind a token, or goes on with
the number of open brackets, and with none open it stops before a closing brace. -/
structure Tracks (skip : Nat → List Token → List Token) : Prop where
  suffix : ∀ depth tokens, skip depth tokens <:+ tokens
  step : ∀ depth t rest, t.isSymbol '{' = false → t.isSymbol '}' = false →
    skip depth (t :: rest) = t :: rest ∨ skip depth (t :: rest) = rest ∨
      skip depth (t :: rest) = skip (tracked depth t) rest
  stop : ∀ t rest, t.isSymbol '}' = true → skip 0 (t :: rest) = t :: rest

theorem tracks_afterExpression : Tracks afterExpression where
  suffix := afterExpression_suffix
  step depth t rest _ _ := by
    rw [afterExpression, tracked]
    grind
  stop t rest h := by simp [afterExpression, isOpener, isCloser, isSymbol_eq h]

theorem tracks_fromCloser (closer : Char) : Tracks (fromCloser closer) where
  suffix := fromCloser_suffix closer
  step depth t rest hopening hclosing := by
    rw [fromCloser, tracked, isOpener, isCloser]
    grind
  stop t rest h := by simp [fromCloser, h]

theorem tracks_afterStatement : Tracks afterStatement where
  suffix := afterStatement_suffix
  step depth t rest _ hclosing := by
    rw [afterStatement, tracked]
    grind
  stop t rest h := by simp [afterStatement, isSymbol_eq h]

/-! ### Places -/

/-- Places that are not left by taking any tokens. -/
class Hereditary (P : List Token → Prop) : Prop where
  suffix : ∀ {tokens rest}, P tokens → rest <:+ tokens → P rest

/-- Places that are not left by skipping, nor by taking a token other than a closing brace.  Unless they
are left by nothing at all, an opening brace is at none of them. -/
class Enclosure (P : List Token → Prop) : Prop where
  next : ∀ {t rest}, P (t :: rest) → t.isSymbol '}' = false → P rest
  skip : ∀ {skip tokens}, Tracks skip → P tokens → P (skip 0 tokens)
  braces : (∀ t rest, P (t :: rest) → t.isSymbol '{' = false) ∨ Hereditary P

/-- All places. -/
def AnyPlace (_ : List Token) : Prop := True

/-- The places in some tokens. -/
def LastPart (tokens rest : List Token) : Prop := rest <:+ tokens

instance : Hereditary AnyPlace where
  suffix _ _ := trivial

instance (tokens : List Token) : Hereditary (LastPart tokens) where
  suffix h hrest := List.IsSuffix.trans hrest h

variable {W : List Token → List Token → Prop} {P : List Token → Prop}

instance (priority := low) [h : Hereditary P] : Enclosure P where
  next hplace _ := h.suffix hplace (List.suffix_cons _ _)
  skip hskip hplace := h.suffix hplace (hskip.suffix 0 _)
  braces := .inr h

/-! ### From one place to another -/

/-- From the tokens to the rest of them there is a way, and it does not leave the places. -/
structure Leads (W : List Token → List Token → Prop) (P : List Token → Prop) (tokens rest : List Token) :
    Prop where
  suffix : rest <:+ tokens
  crosses : W tokens rest
  stays : P tokens → P rest

theorem Leads.refl [h : Crossing W] (tokens : List Token) : Leads W P tokens tokens :=
  ⟨List.suffix_rfl, h.refl tokens, id⟩

theorem leads_plain [hW : Crossing W] [hP : Enclosure P] (h : Plain t) (rest : List Token) :
    Leads W P (t :: rest) rest :=
  ⟨List.suffix_cons t rest, hW.plain h rest, fun hplace => hP.next hplace (h '}' (by decide))⟩

theorem leads_append [hW : Crossing W] [Enclosure P] {used : List Token} (h : ∀ t ∈ used, Plain t) :
    Leads W P (used ++ rest) rest := by
  induction used with
  | nil => exact .refl rest
  | cons t used ih =>
      obtain ⟨ht, hused⟩ := List.forall_mem_cons.mp h
      have hfirst : Leads W P (t :: (used ++ rest)) (used ++ rest) := leads_plain ht _
      have hmore := ih hused
      exact ⟨hmore.suffix.trans hfirst.suffix, hW.trans hfirst.crosses hmore.crosses,
        fun hplace => hmore.stays (hfirst.stays hplace)⟩

/-- Skipping ends at one of the places. -/
theorem leads_skip [h : Enclosure P] {skip : Nat → List Token → List Token} (hskip : Tracks skip)
    (tokens : List Token) : Leads AnyWay P tokens (skip 0 tokens) :=
  ⟨hskip.suffix 0 tokens, trivial, h.skip hskip⟩

theorem leads_suffix [h : Hereditary P] (hrest : rest <:+ tokens) : Leads AnyWay P tokens rest :=
  ⟨hrest, trivial, fun hplace => h.suffix hplace hrest⟩

/-- A token on which the condition holds can be taken. -/
def Takes (W : List Token → List Token → Prop) (P : List Token → Prop) (condition : Token → Bool) : Prop :=
  ∀ t rest, condition t = true → Leads W P (t :: rest) rest

section Takes

variable [Crossing W] [hP : Enclosure P]

theorem takes_plain {condition : Token → Bool} (h : ∀ t, condition t = true → Plain t) :
    Takes W P condition :=
  fun t rest ht => leads_plain (h t ht) rest

theorem takes_symbol {c : Char} (hc : c ∉ ['{', '}', ';']) : Takes W P fun t => t.isSymbol c :=
  takes_plain fun _ ht => plain_of_isSymbol ht hc

omit [Crossing W] in
theorem takes_semicolon [hW : Bridging W] : Takes W P fun t => t.isSymbol ';' := fun t rest ht =>
  ⟨List.suffix_cons t rest, hW.semicolon ht rest, fun hplace => hP.next hplace (isSymbol_ne ht (by decide))⟩

omit [Crossing W] hP in
theorem takes_any [Hereditary P] (condition : Token → Bool) : Takes AnyWay P condition :=
  fun t rest _ => leads_suffix (List.suffix_cons t rest)

end Takes

/-- There is a next token and it can be taken. -/
def Takeable (W : List Token → List Token → Prop) (P : List Token → Prop) (tokens : List Token) : Prop :=
  ∃ t rest, tokens = t :: rest ∧ Leads W P tokens rest

theorem Takes.takeable {condition : Token → Bool} (h : Takes W P condition)
    (hnext : tokens.head?.any condition = true) : Takeable W P tokens := by
  obtain ⟨t, rest, rfl, ht⟩ := Production.head?_any_eq_true.mp hnext
  exact ⟨t, rest, rfl, h t rest ht⟩

end Shading.Grammar
