import Shading.Proofs.Grammar.Children
import Shading.Proofs.Grammar.Measures
import Shading.Proofs.Grammar.Meets

/-! # What productions do, whatever the tokens are

What is built by productions is `Built`: the children of every node fill the places for them, nodes nest
no deeper and are no higher than some bounds, and there are no more stand-ins than errors.  Each token pays
for a step of height and each error for a stand-in.

One walk over the productions shows that, for all ways and places at once.  So it also gives where the
messages are (`mem_parse_messages`), that a function which can be read is skipped as a whole, and that
problems in a body stay in it. -/

namespace Shading

namespace Grammar

open Production Node NodeKind

/-! ### What is built -/

variable {kinds more : List NodeKind} {places places' : List Place} {bound bound' height height' : Nat}
  {errors errors' extra : Nat} {nodes nodes' : List Node} {n : Node} {kind : NodeKind} {token : Token}
  {W : List Token → List Token → Prop} {P : List Token → Prop}

/-- A well built node of one of the kinds, which nests no deeper than `bound`, is no higher than `height`
and holds no more than `errors` stand-ins. -/
structure IsBuilt (kinds : List NodeKind) (bound height errors : Nat) (n : Node) : Prop where
  kind : n.kind ∈ kinds
  wellBuilt : n.WellBuilt
  nesting : n.nesting ≤ bound
  height : n.height ≤ height
  standIns : n.standIns ≤ errors

/-- Nodes like that which fill the places. -/
structure Built (places : List Place) (bound height errors : Nat) (nodes : List Node) : Prop where
  fills : Fills places (nodes.map Node.kind)
  wellBuilt : ∀ n ∈ nodes, n.WellBuilt
  nesting : ∀ n ∈ nodes, n.nesting ≤ bound
  height : ∀ n ∈ nodes, n.height ≤ height
  standIns : standInsAll nodes ≤ errors

theorem IsBuilt.mono (h : IsBuilt kinds bound height errors n) (hkinds : kinds ⊆ more)
    (hbound : bound ≤ bound') (hheight : height ≤ height') (herrors : errors ≤ errors') :
    IsBuilt more bound' height' errors' n :=
  ⟨hkinds h.kind, h.wellBuilt, h.nesting.trans hbound, h.height.trans hheight, h.standIns.trans herrors⟩

theorem IsBuilt.within (h : IsBuilt kinds bound height errors n) (hbound : bound ≤ bound')
    (hheight : height ≤ height') (herrors : errors ≤ errors') : IsBuilt kinds bound' height' errors' n :=
  h.mono (List.Subset.refl _) hbound hheight herrors

theorem isBuilt_unknown (token : Token) (h : .unknown ∈ kinds) :
    IsBuilt kinds bound height 1 (leaf .unknown token) :=
  ⟨h, wellBuilt_mk.mpr ⟨.nil, by simp⟩, by simp [leaf, Node.nesting], by simp [leaf, heightAll], by simp⟩

namespace Built

theorem nil : Built [] bound height 0 [] := ⟨.nil, by simp, by simp, by simp, Nat.le_refl _⟩

theorem absent : Built [.optional kinds] bound height 0 [] :=
  ⟨.absent .nil, by simp, by simp, by simp, Nat.le_refl _⟩

theorem none : Built [.many kinds] bound height 0 [] :=
  ⟨.noMore .nil, by simp, by simp, by simp, Nat.le_refl _⟩

theorem mono (h : Built places bound height errors nodes) (hbound : bound ≤ bound')
    (hheight : height ≤ height') (herrors : errors ≤ errors') : Built places bound' height' errors' nodes :=
  ⟨h.fills, h.wellBuilt, fun n hn => (h.nesting n hn).trans hbound,
    fun n hn => (h.height n hn).trans hheight, h.standIns.trans herrors⟩

theorem append (h : Built places bound height errors nodes) (h' : Built places' bound height errors' nodes') :
    Built (places ++ places') bound height (errors + errors') (nodes ++ nodes') := by
  refine ⟨?_, List.forall_mem_append.mpr ⟨h.wellBuilt, h'.wellBuilt⟩,
    List.forall_mem_append.mpr ⟨h.nesting, h'.nesting⟩,
    List.forall_mem_append.mpr ⟨h.height, h'.height⟩, ?_⟩
  · rw [List.map_append]
    exact h.fills.append h'.fills
  · rw [standInsAll_append]
    exact Nat.add_le_add h.standIns h'.standIns

theorem one (h : IsBuilt kinds bound height errors n) : Built [.one kinds] bound height errors [n] :=
  ⟨.one h.kind .nil, by simpa using h.wellBuilt, by simpa using h.nesting, by simpa using h.height,
    by simpa using h.standIns⟩

theorem present (h : IsBuilt kinds bound height errors n) :
    Built [.optional kinds] bound height errors [n] :=
  ⟨.present h.kind .nil, (one h).wellBuilt, (one h).nesting, (one h).height, (one h).standIns⟩

theorem toList {node? : Option Node} (h : ∀ n ∈ node?, IsBuilt kinds bound height errors n) :
    Built [.optional kinds] bound height errors node?.toList := by
  cases node? with
  | none => exact absent.mono (Nat.le_refl _) (Nat.le_refl _) (Nat.zero_le _)
  | some n => exact present (h n rfl)

theorem concat (h : Built [.many kinds] bound height errors nodes)
    (hn : IsBuilt kinds bound height errors' n) :
    Built [.many kinds] bound height (errors + errors') (nodes ++ [n]) := by
  have hboth := h.append (one hn)
  refine ⟨.many ?_, hboth.wellBuilt, hboth.nesting, hboth.height, hboth.standIns⟩
  rw [List.map_append, List.forall_mem_append]
  exact ⟨h.fills.mem_many, by simpa using hn.kind⟩

/-- A node is one step above its children. -/
theorem node (kind : NodeKind) (token : Token) (h : Built kind.places bound height errors nodes)
    (hkind : kind ∈ kinds) (hknown : kind ≠ .unknown) :
    IsBuilt kinds (bound + 1) (height + 1) errors (.mk kind token nodes) := by
  refine ⟨hkind, wellBuilt_mk.mpr ⟨h.fills, h.wellBuilt⟩, ?_, ?_, ?_⟩
  · exact (nesting_mk_le kind token nodes).trans
      (nestingAll_le.mpr fun n hn => Nat.succ_le_succ (h.nesting n hn))
  · rw [height_mk]
    exact heightAll_le.mpr fun n hn => Nat.succ_le_succ (h.height n hn)
  · simpa [hknown] using h.standIns

theorem leaf (hplaces : Fills kind.places []) (hkind : kind ∈ kinds) (hknown : kind ≠ .unknown) :
    IsBuilt kinds bound height 0 (.leaf kind token) :=
  ⟨hkind, wellBuilt_mk.mpr ⟨hplaces, by simp⟩, by simp [Node.leaf, Node.nesting],
    by simp [Node.leaf, heightAll], by simp [hknown]⟩

end Built

/-- A chain nests no deeper than its first child. -/
theorem isBuilt_chain {first second : Node} (hchain : kind.isChain = true)
    (hplaces : kind.places = [.one expressions, .one kinds])
    (hfirst : IsBuilt expressions (bound + 1) height errors first)
    (hsecond : IsBuilt kinds bound height errors' second) (hkind : kind ∈ expressions) :
    IsBuilt expressions (bound + 1) (height + 1) (errors + errors') (.mk kind token [first, second]) := by
  have hboth : Built kind.places (bound + 1) height (errors + errors') [first, second] := by
    rw [hplaces]
    exact (Built.one hfirst).append (.one (hsecond.within (Nat.le_succ _) (Nat.le_refl _) (Nat.le_refl _)))
  have hknown : kind ≠ .unknown := by
    rintro rfl
    cases hchain
  have hnode := Built.node kind token hboth hkind hknown
  refine { hnode with nesting := ?_ }
  have hnesting := hfirst.nesting
  have hnesting' := hsecond.nesting
  rw [Node.nesting, nestingAll, nestingAll, hchain, if_pos rfl]
  omega

/-- What the production finds is built from the tokens it takes. -/
def Finds (W : List Token → List Token → Prop) (P : List Token → Prop) (kinds : List NodeKind)
    (bound extra : Nat) (p : Production (Option Node)) : Prop :=
  ∀ past tokens, p.Meets W P past tokens fun node? used errors =>
    ∀ n ∈ node?, IsBuilt kinds bound (used + extra) errors n

/-- What the production makes is built from the tokens it takes. -/
def Makes (W : List Token → List Token → Prop) (P : List Token → Prop) (kinds : List NodeKind)
    (bound extra : Nat) (p : Production Node) : Prop :=
  ∀ past tokens, p.Meets W P past tokens fun n used errors => IsBuilt kinds bound (used + extra) errors n

theorem Finds.mono {p : Production (Option Node)} (hp : Finds W P kinds bound extra p)
    (hbound : bound ≤ bound') {extra' : Nat} (hextra : extra ≤ extra') :
    Finds W P kinds bound' extra' p := fun past tokens =>
  (hp past tokens).mono fun _ _ _ hn n h => (hn n h).within hbound (by omega) (Nat.le_refl _)

/-! ### Stand-ins and lists -/

variable {past : Span} {tokens : List Token} {item e operand : Production (Option Node)}

section Phrases

variable [Crossing W]

theorem Makes.found {p : Production Node} (hp : Makes W P kinds bound extra p) :
    Finds W P kinds bound extra (do return some (← p)) := fun past tokens =>
  (hp past tokens).bind fun _ _ _ _ hn => meets_pure fun _ h => Option.some.inj h ▸ hn

omit [Crossing W] in
theorem makes_tooDeep {after : List Token → List Token}
    (hafter : ∀ tokens, Leads AnyWay P tokens (after tokens)) (h : .unknown ∈ kinds) :
    Makes W P kinds bound extra (tooDeep after) := fun _ _ =>
  meets_report _ (meets_look rfl (.free (anchored_leave hafter) fun _ _ =>
    meets_pure (isBuilt_unknown _ h)))

variable [Enclosure P]

/-- An item is added to those found before. -/
theorem meets_nextItem (hitem : Finds W P kinds bound extra item) {items : Items} {used errors : Nat}
    (h : Built [.many kinds] bound (used + extra) errors items.nodes) (mid : List Token) :
    (nextItem item items).Meets W P past mid fun turned used' errors' => TurnHolds (fun items =>
      Built [.many kinds] bound (used + used' + extra) (errors + errors') items.nodes) turned := by
  refine (hitem past mid).bind fun node? _ used' errors' hnode => ?_
  cases node? with
  | none => exact meets_pure (h.mono (Nat.le_refl _) (by omega) (by omega))
  | some node =>
      have hitems : Built [.many kinds] bound (used + used' + extra) (errors + errors')
          (items.nodes ++ [node]) :=
        (h.mono (Nat.le_refl _) (by omega) (Nat.le_refl _)).concat
          ((hnode node rfl).within (Nat.le_refl _) (by omega) (Nat.le_refl _))
      exact .free (anchored_accept (takes_symbol (by decide))) fun _ _ =>
        meets_ite (meets_pure hitems) (meets_pure hitems)

theorem meets_separated (hitem : Finds W P kinds bound extra item) (past : Span) (tokens : List Token) :
    (separated item).Meets W P past tokens fun items used errors =>
      Built [.many kinds] bound (used + extra) errors items.nodes :=
  meets_repeatWhile (I := fun (items : Items) used errors =>
    Built [.many kinds] bound (used + extra) errors items.nodes)
    (fun _ _ _ mid h => meets_nextItem hitem h mid) .none

/-- A list in parentheses takes the opening one. -/
theorem meets_listed (hitem : Finds W P kinds bound 0 item) (missing : Problem)
    (hplaces : kind.places = [.many kinds]) (hknown : kind ≠ .unknown) (past : Span)
    (hnext : Takeable W P tokens) :
    (listed kind missing item).Meets W P past tokens fun n used errors =>
      0 < used ∧ IsBuilt [kind] (bound + 1) used errors n := by
  refine meets_take hnext fun token mid => ?_
  have hend : ∀ (items : Items) (used errors : Nat) (left : List Token),
      Built [.many kinds] bound used errors items.nodes →
      Meets W P (do
        closeList ')' missing items.complete
        return Node.mk kind token items.nodes) past left fun n used' errors' =>
          0 < 1 + (used + used') ∧ IsBuilt [kind] (bound + 1) (1 + (used + used')) (errors + errors') n :=
    fun items used errors left hitems =>
      .free (anchored_closeList (takes_symbol (by decide)) missing _) fun _ _ =>
        meets_pure ⟨by omega, (Built.node kind token (hplaces ▸ hitems) (by simp) hknown).within
          (Nat.le_refl _) (by omega) (Nat.le_refl _)⟩
  refine meets_if (fun _ => ?_) ?_
  · have hempty := hend {} 0 0 mid .none
    simpa using hempty
  · exact (meets_separated hitem past mid).bind fun items left used errors hitems =>
      hend items used errors left hitems

/-! ### Names and types -/

/-- A name is a token. -/
theorem meets_identifier {α : Type} {f : Option Node → Production α} {S : α → Nat → Nat → Prop}
    (hnone : (f none).Meets W P past tokens S)
    (hsome : ∀ name mid, (∀ {bound height}, IsBuilt [.identifier] bound height 0 name) →
      (f (some name)).Meets W P past mid fun a used errors => S a (1 + used) errors) :
    (identifier >>= f).Meets W P past tokens S := by
  rw [identifier, bind_assoc]
  simp only [pure_bind]
  exact meets_takeIf (takes_plain fun _ => plain_of_isName) hnone fun _ mid =>
    hsome _ mid (Built.leaf .nil (by simp) (by decide))

theorem meets_typeQualifiers (past : Span) (tokens : List Token) :
    typeQualifiers.Meets W P past tokens fun nodes _ _ =>
      ∀ {bound height}, Built [.many [.typeQualifier]] bound height 0 nodes := by
  obtain ⟨nodes, left, hreads⟩ : ∃ nodes left, typeQualifiers.Reads past tokens nodes left := ⟨_, _, rfl⟩
  obtain ⟨words, rfl, hwords, -, rfl⟩ := reads_typeQualifiers.mp hreads
  have hleads : Leads W P (words ++ left) left :=
    leads_append fun t ht => plain_of_isQualifier (hwords t ht)
  have hcount : left.length + 0 ≤ (words ++ left).length := hleads.suffix.length_le
  rw [← bind_pure typeQualifiers]
  refine meets_silent hreads hleads hcount (meets_pure fun {bound height} => ?_)
  clear hreads hwords hleads hcount
  induction words using List.reverseRecOn with
  | nil => exact .none
  | append_singleton words t ih =>
      rw [List.map_append]
      have hword : IsBuilt [.typeQualifier] bound height 0 (leaf .typeQualifier t) :=
        Built.leaf .nil (by simp) (by decide)
      exact ih.concat hword

theorem meets_typeArguments (hitem : Finds W P [.typename] bound 0 item) (past : Span) (tokens : List Token) :
    (typeArguments item).Meets W P past tokens fun nodes? used errors =>
      Built [.many [.typename]] bound used errors (nodes?.getD []) := by
  have hnone : ∀ used errors, Built [.many [.typename]] bound used errors
      ((none : Option (List Node)).getD []) :=
    fun _ _ => Built.none.mono (Nat.le_refl _) (Nat.le_refl _) (Nat.zero_le _)
  refine Meets.rewinding (.free (anchored_accept (takes_symbol (by decide))) fun _ mid => ?_) (hnone 0 0)
  refine meets_ite (meets_pure (hnone 0 0)) ?_
  refine (meets_separated hitem past mid).bind fun items _ used errors hitems => ?_
  refine meets_ite (meets_pure (hnone _ _)) (.free (anchored_accept (takes_symbol (by decide))) fun _ _ => ?_)
  exact meets_ite (meets_pure hitems) (meets_pure (hnone _ _))

/-- A type name takes a token. -/
theorem meets_typenameWithin (levels : Nat) (past : Span) (tokens : List Token) :
    (typenameWithin levels).Meets W P past tokens fun node? used errors =>
      ∀ n ∈ node?, 0 < used ∧ IsBuilt [.typename] levels used errors n := by
  induction levels generalizing past tokens with
  | zero =>
      exact meets_takeIf (takes_plain fun _ => plain_of_isName) (meets_pure nofun) fun _ _ =>
        meets_pure fun _ h => Option.some.inj h ▸
          ⟨Nat.one_pos, Built.leaf (.noMore .nil) (by simp) (by decide)⟩
  | succ levels ih =>
      refine meets_takeIf (takes_plain fun _ => plain_of_isName) (meets_pure nofun) fun token mid => ?_
      have hitem : Finds W P [.typename] levels 0 (typenameWithin levels) := fun past tokens =>
        (ih past tokens).mono fun _ _ _ h n hn => (h n hn).2
      refine (meets_typeArguments hitem past mid).bind fun _ _ used errors hnodes => ?_
      exact meets_pure fun _ h => Option.some.inj h ▸ ⟨by omega, (Built.node .typename token hnodes (by simp)
        (by decide)).within (Nat.le_refl _) (by omega) (Nat.le_refl _)⟩

theorem meets_typename (past : Span) (tokens : List Token) :
    typename.Meets W P past tokens fun node? used errors =>
      ∀ n ∈ node?, 0 < used ∧ IsBuilt [.typename] nestingLimit used errors n :=
  meets_typenameWithin nestingLimit past tokens

/-! ### Expressions -/

omit [Enclosure P] in
theorem makes_orMissing (he : Finds W P expressions bound extra e) :
    Makes W P expressions bound extra (orMissing e) := by
  intro past tokens
  refine (he past tokens).bind fun node? _ used errors hnode => ?_
  cases node? with
  | some node => exact meets_pure (hnode node rfl)
  | none =>
      refine meets_report _ ?_
      rw [← bind_pure standIn]
      exact meets_look rfl (meets_pure ((isBuilt_unknown _ (by decide)).within (Nat.le_refl _)
        (Nat.le_refl _) (Nat.le_add_left _ _)))

/-- What stands between brackets.  A missing expression is reported, which pays for what it leaves. -/
theorem makes_bracketed {closer : Char} {missing : Production Node}
    (hcloser : closer ∉ ['{', '}', ';']) (he : Finds W P expressions bound extra e)
    (hmissing : ∀ past tokens, ∃ token, missing past tokens = ⟨leaf .unknown token, tokens, []⟩) :
    Makes W P expressions bound extra (bracketed closer e missing) := by
  intro past tokens
  have hend : ∀ (node : Node) (left : List Token) {used errors : Nat},
      IsBuilt expressions bound (used + extra) errors node →
      Meets W P (do let _ ← accept closer; return node) past left fun node used' errors' =>
        IsBuilt expressions bound (used + used' + extra) (errors + errors') node := fun _ _ _ _ h =>
    .free (anchored_accept (takes_symbol hcloser)) fun _ _ => meets_pure h
  refine (he past tokens).bind fun node? left used errors hnode => ?_
  cases node? with
  | some node =>
      refine meets_look rfl (meets_ite (hend node left (hnode node rfl)) ?_)
      refine meets_report _ (.free (anchored_skipToCloser closer) fun _ mid => ?_)
      exact ((hend node mid (hnode node rfl)).mono fun _ _ _ hn =>
        hn.within (Nat.le_refl _) (Nat.le_refl _) (by omega)).anyWay
  | none =>
      obtain ⟨token, hread⟩ := hmissing past left
      refine meets_report _ (meets_look hread (.free (anchored_skipToCloser closer) fun _ mid => ?_))
      simp only [← Nat.add_assoc]
      exact (hend _ mid ((isBuilt_unknown token (by decide)).within (Nat.le_refl _) (Nat.le_refl _)
        (by omega))).anyWay

theorem literalKind?_mem {t : Token} (h : literalKind? t = some kind) :
    kind ∈ [.integerLiteral, .floatLiteral, .stringLiteral, .boolLiteral] := by
  unfold literalKind? at h
  split_ifs at h <;> simp [← Option.some.inj h]

theorem meets_literal {f : Option Node → Production α} {S : α → Nat → Nat → Prop}
    (hnone : (f none).Meets W P past tokens S)
    (hsome : ∀ n mid, (∀ {bound height}, IsBuilt expressions bound height 0 n) →
      (f (some n)).Meets W P past mid fun a used errors => S a (1 + used) errors) :
    (literal >>= f).Meets W P past tokens S := by
  cases hfound : tokens.head?.bind literalKind? with
  | none => exact meets_look (reads_literal_none.mpr ⟨hfound, rfl⟩) hnone
  | some kind =>
      obtain ⟨t, ht, hkind⟩ := Option.bind_eq_some_iff.mp hfound
      obtain ⟨rest, rfl⟩ := List.head?_eq_some_iff.mp ht
      refine meets_silent (reads_literal_some.mpr ⟨t, kind, hkind, rfl, rfl⟩)
        (leads_plain (plain_of_literalKind? hkind) rest) (Nat.le_refl _) (hsome _ rest fun {_ _} => ?_)
      have hmem := literalKind?_mem hkind
      simp only [List.mem_cons, List.not_mem_nil, or_false] at hmem
      rcases hmem with rfl | rfl | rfl | rfl
      all_goals exact Built.leaf .nil (by decide) (by decide)

/-- A primary expression takes a token. -/
theorem meets_primary (he : Finds W P expressions bound 0 e) (past : Span) (tokens : List Token) :
    (primary e).Meets W P past tokens fun node? used errors =>
      ∀ n ∈ node?, 0 < used ∧ IsBuilt expressions bound used errors n := by
  refine meets_literal ?_ fun _ _ hn =>
    meets_pure fun _ h => Option.some.inj h ▸ ⟨Nat.one_pos, hn⟩
  refine meets_identifier ?_ fun _ _ hn => meets_pure fun _ h => Option.some.inj h ▸
    ⟨Nat.one_pos, hn.mono (by decide) (Nat.le_refl _) (Nat.le_refl _) (Nat.le_refl _)⟩
  refine meets_takeIf (takes_symbol (by decide)) (meets_pure nofun) fun opening mid => ?_
  refine (makes_bracketed (by decide) he (fun _ _ => ⟨opening, rfl⟩) past mid).bind fun _ _ _ _ hn => ?_
  exact meets_pure fun _ h => Option.some.inj h ▸
    ⟨by omega, hn.within (Nat.le_refl _) (by omega) (Nat.le_refl _)⟩

theorem meets_argumentList (he : Finds W P expressions bound 0 e) (past : Span)
    (hnext : Takeable W P tokens) :
    (argumentList e).Meets W P past tokens fun n used errors =>
      0 < used ∧ IsBuilt [.argumentList] (bound + 1) used errors n :=
  meets_listed he _ rfl (by decide) past hnext

/-- What was read is put below a call, a member access or an index, which takes a token. -/
theorem meets_suffix (he : Finds W P expressions bound 0 e) {used errors : Nat} (mid : List Token)
    (h : 0 < used ∧ IsBuilt expressions (bound + 2) used errors n) :
    (suffix e n).Meets W P past mid fun turned used' errors' => TurnHolds (fun n =>
      0 < used + used' ∧ IsBuilt expressions (bound + 2) (used + used') (errors + errors') n) turned := by
  obtain ⟨hused, hn⟩ := h
  have happly : ∀ {kind : NodeKind} {kinds : List NodeKind} {other : Node} {token : Token}
      {used' errors' : Nat}, kind.isChain = true → kind.places = [.one expressions, .one kinds] →
      kind ∈ expressions → 0 < used' → IsBuilt kinds (bound + 1) (used + used' - 1) errors' other →
      0 < used + used' ∧ IsBuilt expressions (bound + 2) (used + used') (errors + errors')
        (.mk kind token [n, other]) := by
    intro kind kinds other token used' errors' hchain hplaces hkind hused' hother
    have hfirst := hn.within (Nat.le_refl _) (show used ≤ used + used' - 1 by omega) (Nat.le_refl _)
    exact ⟨by omega, (isBuilt_chain hchain hplaces hfirst hother hkind).within (Nat.le_refl _)
      (by omega) (Nat.le_refl _)⟩
  refine meets_if (fun hnext => meets_look rfl ?_) ?_
  · -- the argument list takes the parenthesis, and what was read took a token before
    have hopening : Takeable W P mid := (takes_symbol (by decide)).takeable hnext
    refine (meets_argumentList he past hopening).bind fun _ _ used' errors' harguments => ?_
    exact meets_pure (happly rfl rfl (by decide) harguments.1
      (harguments.2.within (Nat.le_refl _) (by omega) (Nat.le_refl _)))
  refine meets_takeIf (takes_symbol (by decide)) (meets_takeIf (takes_symbol (by decide))
    (meets_pure ⟨hused, hn⟩) fun bracket inner => ?_) fun dot inner => ?_
  · refine (makes_bracketed (by decide) he (fun _ _ => ⟨_, rfl⟩) past inner).bind
      fun _ _ used' errors' hindex => ?_
    exact meets_pure (happly rfl rfl (by decide) (by omega)
      (hindex.within (Nat.le_succ _) (by omega) (Nat.le_refl _)))
  · refine meets_identifier ?_ fun _ _ hmember => meets_pure (happly rfl rfl (by decide) (by omega)
      (hmember.mono (by decide) (Nat.le_refl _) (Nat.le_refl _) (Nat.le_refl _)))
    exact meets_report _ (meets_look rfl (meets_pure (happly rfl rfl (by decide)
      (by omega) (isBuilt_unknown _ (by decide)))))

theorem finds_suffixed (he : Finds W P expressions bound 0 e) :
    Finds W P expressions (bound + 2) 0 (suffixed e) := by
  intro past tokens
  refine (meets_primary he past tokens).bind fun node? mid used errors hnode => ?_
  cases node? with
  | none => exact meets_pure nofun
  | some node =>
      obtain ⟨hused, hn⟩ := hnode node rfl
      refine Meets.bind (meets_repeatWhile (I := fun n used' errors' =>
        0 < used + used' ∧ IsBuilt expressions (bound + 2) (used + used') (errors + errors') n) ?_ ?_) ?_
      · intro n used' errors' mid h
        simpa only [Nat.add_assoc] using meets_suffix he mid h
      · exact ⟨hused, hn.within (Nat.le_add_right _ _) (Nat.le_refl _) (Nat.le_refl _)⟩
      · exact fun _ _ _ _ hlast => meets_pure fun _ h => Option.some.inj h ▸ hlast.2

/-- A sign takes a token. -/
theorem finds_unary {operand? : Option (Production (Option Node))}
    (hoperand : ∀ operand ∈ operand?, Finds W P expressions (bound + 1) 0 operand)
    (he : Finds W P expressions bound 0 e) : Finds W P expressions (bound + 2) 0 (unary operand? e) := by
  intro past tokens
  refine meets_unless (finds_suffixed he past tokens) fun hnext => ?_
  cases operand? with
  | none => exact (makes_tooDeep (leads_skip tracks_afterExpression) (by decide)).found past tokens
  | some operand =>
      refine meets_take ((takes_plain fun _ => plain_of_isSign).takeable hnext) fun token mid => ?_
      refine (makes_orMissing (hoperand operand rfl) past mid).bind fun n _ used errors hn => ?_
      have hplaced : Built NodeKind.unaryExpression.places _ _ _ [n] := .one hn
      exact meets_pure fun _ h => Option.some.inj h ▸ (Built.node .unaryExpression token hplaced (by decide)
        (by decide)).within (Nat.le_refl _) (by omega) (Nat.le_refl _)

/-- What was read is put below an operator, which takes a token. -/
theorem meets_extendBinary {right : Nat → Production (Option Node)}
    (hright : ∀ k, Finds W P expressions bound 0 (right k)) (least : Nat) {used errors : Nat}
    (mid : List Token) (h : IsBuilt expressions (bound + 1) used errors n) :
    (extendBinary right least n).Meets W P past mid fun turned used' errors' => TurnHolds (fun n =>
      IsBuilt expressions (bound + 1) (used + used') (errors + errors') n) turned := by
  refine meets_look rfl ?_
  cases hfound : binaryOperator? least mid with
  | none => exact meets_pure h
  | some found =>
      obtain ⟨token, width, precedence⟩ := found
      obtain ⟨hoperator, hprecedence, -⟩ := binaryOperator?_eq_some.mp hfound
      have hne : mid ≠ [] := by
        rintro rfl
        cases hoperator
      have hwidth : 0 < width := by
        obtain ⟨_, rfl, _⟩ | ⟨_, _, _, rfl, _⟩ := operator?_eq_some hoperator <;> decide
      have hleads : Leads W P mid (mid.drop width) := by
        obtain ⟨symbols, hsplit, hsymbols⟩ := operator?_symbols hoperator
        have happend : Leads W P (symbols ++ mid.drop width) (mid.drop width) :=
          leads_append fun t ht c hc => Bool.eq_false_iff.mpr fun hsymbol =>
            notMem_of_precedence? hprecedence c hc (hsymbols t ht c hsymbol)
        rwa [← hsplit] at happend
      refine meets_skip hwidth hne hleads ?_
      refine (makes_orMissing (hright precedence) past _).bind fun other _ used' errors' hother => ?_
      have hfirst := h.within (Nat.le_refl _) (show used ≤ used + used' by omega) (Nat.le_refl _)
      have hsecond := hother.within (Nat.le_refl _) (show used' + 0 ≤ used + used' by omega) (Nat.le_refl _)
      exact meets_pure ((isBuilt_chain rfl rfl hfirst hsecond (by decide)).within (Nat.le_refl _)
        (by omega) (Nat.le_refl _))

theorem finds_binary (h : Finds W P expressions bound 0 operand) (levels least : Nat) :
    Finds W P expressions (bound + levels) 0 (binary operand levels least) := by
  induction levels generalizing least with
  | zero => exact h
  | succ levels ih =>
      intro past tokens
      refine (h past tokens).bind fun node? mid used errors hnode => ?_
      cases node? with
      | none => exact meets_pure nofun
      | some node =>
          refine Meets.bind (meets_repeatWhile (I := fun n used' errors' =>
            IsBuilt expressions (bound + levels + 1) (used + used') (errors + errors') n) ?_ ?_) ?_
          · intro n used' errors' mid hn
            simpa only [Nat.add_assoc] using meets_extendBinary (fun k => ih (k + 1)) least mid hn
          · exact (hnode node rfl).within (by omega) (Nat.le_refl _) (Nat.le_refl _)
          · exact fun _ _ _ _ hlast => meets_pure fun _ h => Option.some.inj h ▸ hlast

theorem finds_assignment (h : Finds W P expressions bound 0 operand) (he : Finds W P expressions bound 0 e) :
    Finds W P expressions (bound + precedenceLevels + 1) 0 (assignment operand e) := by
  intro past tokens
  refine (finds_binary h precedenceLevels 1 past tokens).bind fun target? mid used errors htarget => ?_
  cases target? with
  | none => exact meets_pure nofun
  | some target =>
      have htarget := htarget target rfl
      have hbare : Meets W P (pure (some target)) past mid fun node? used' errors' => ∀ n ∈ node?,
          IsBuilt expressions (bound + precedenceLevels + 1) (used + used' + 0) (errors + errors') n :=
        meets_pure fun _ h => Option.some.inj h ▸ htarget.within (Nat.le_succ _) (Nat.le_refl _)
          (Nat.le_refl _)
      refine meets_look rfl ?_
      cases hfound : operator? mid with
      | none => exact hbare
      | some found =>
          obtain ⟨token, width⟩ := found
          have hne : mid ≠ [] := by
            rintro rfl
            cases hfound
          refine meets_cases (fun htext => ?_) fun _ => hbare
          have hleads : Leads W P mid (mid.drop 1) := by
            obtain ⟨hequals, hsplit⟩ := equals_sound hfound htext
            have hplain : Leads W P (token :: mid.drop 1) (mid.drop 1) :=
              leads_plain (plain_of_isSymbol hequals (by decide)) _
            rwa [← hsplit] at hplain
          refine meets_skip Nat.one_pos hne hleads ?_
          refine (makes_orMissing he past _).bind fun value _ used' errors' hvalue => ?_
          have hplaced : Built NodeKind.assignmentExpression.places (bound + precedenceLevels)
              (used + used') (errors + errors') [target, value] :=
            (Built.one (htarget.within (Nat.le_refl _) (by omega) (Nat.le_refl _))).append
              (.one (hvalue.within (Nat.le_add_right _ _) (by omega) (Nat.le_refl _)))
          exact meets_pure fun _ h => Option.some.inj h ▸ (Built.node .assignmentExpression token hplaced
            (by decide) (by decide)).within (Nat.le_refl _) (by omega) (Nat.le_refl _)

/-- Each unit of nesting makes room for six operators, a sign, an argument list and a call. -/
theorem finds_level (units : Nat) : Finds W P expressions (9 * units) 0 (level units).expression ∧
    Finds W P expressions (9 * units + 2) 0 (level units).unary := by
  induction units with
  | zero =>
      have hexpression : Finds W P expressions 0 0 (level 0).expression :=
        (makes_tooDeep (leads_skip tracks_afterExpression) (by decide)).found
      have hunary : Finds W P expressions 2 0 (unary none (level 0).expression) :=
        finds_unary (fun _ hp => nomatch hp) hexpression
      exact ⟨hexpression, hunary⟩
  | succ units ih =>
      obtain ⟨hexpression, hunary⟩ := ih
      have hassignment : Finds W P expressions (9 * (units + 1)) 0 (level (units + 1)).expression :=
        finds_assignment hunary (hexpression.mono (Nat.le_add_right _ 2) (Nat.le_refl 0))
      have hsigned : Finds W P expressions (9 * (units + 1) + 2) 0
          (unary (some (level units).unary) (level (units + 1)).expression) := by
        refine finds_unary (fun p hp => ?_) hassignment
        obtain rfl := Option.some.inj hp
        exact hunary.mono (by omega) (Nat.le_refl 0)
      exact ⟨hassignment, hsigned⟩

theorem finds_expression (units : Nat) : Finds W P expressions (9 * units) 0 (expression units) :=
  (finds_level units).1

end Phrases

/-! ### Statements -/

section Statements

variable [hW : Bridging W]

/-- What stands between the braces lies on a way to the closing one. -/
theorem meets_bracedList [Hereditary P] (units : Nat) (past : Span)
    (hnext : tokens.head?.any (fun t => t.isSymbol '{') = true) :
    (bracedList units).Meets W P past tokens fun n used errors =>
      IsBuilt initialisers (9 * units) used errors n := by
  induction units generalizing past tokens with
  | zero =>
      have hmakes : Makes W P initialisers 0 0 (bracedList 0) :=
        makes_tooDeep (fun tokens => leads_suffix (afterGroup_suffix 0 tokens)) (by decide)
      exact hmakes past tokens
  | succ units ih =>
      have hitem : Finds W P initialisers (9 * units) 0 (bracedItem (bracedList units) (expression units)) := by
        intro past tokens
        refine meets_if (fun hnext => ?_) ?_
        · exact (ih past hnext).bind fun _ _ _ _ hn => meets_pure fun _ h => Option.some.inj h ▸ hn
        · exact (finds_expression units past tokens).mono fun _ _ _ hn n h =>
            (hn n h).mono (List.subset_cons_self _ _) (Nat.le_refl _) (Nat.le_refl _) (Nat.le_refl _)
      have hitems : ∀ mid,
          (repeatWhile (nextBraced (bracedItem (bracedList units) (expression units))) {}).Meets W P past mid
            fun items used errors => Built [.many initialisers] (9 * units) used errors items.nodes :=
        fun mid => by
          refine meets_repeatWhile (I := fun (items : Items) used errors =>
            Built [.many initialisers] (9 * units) used errors items.nodes) ?_ .none
          exact fun items _ _ mid hitems =>
            meets_if (fun _ => meets_pure hitems) (meets_nextItem hitem hitems mid)
      have hlist : (bracedList (units + 1)).Meets AnyWay P past tokens fun n used errors =>
          IsBuilt initialisers (9 * (units + 1)) used errors n := by
        refine meets_take ((takes_any _).takeable hnext) fun token mid => ?_
        refine (hitems mid).anyWay.bind fun items _ used errors hitems => ?_
        refine .free (anchored_closeList (takes_any _) _ _) fun _ _ => meets_pure ?_
        exact (Built.node .bracedInitList token hitems (by decide) (by decide)).within
          (by omega) (by omega) (Nat.le_refl _)
      refine { hlist with crosses := fun hsilent => ?_ }
      obtain ⟨opening, mid, rfl, hopening⟩ := head?_any_eq_true.mp hnext
      obtain ⟨items, closing, hread, -, hclosing, -⟩ :=
        reads_bracedList_succ.mp (reads_of_messages_eq_nil hsilent)
      exact hW.braces hopening hclosing ((hitems mid).way hread)

variable [Enclosure P]

theorem meets_initialiser (units : Nat) (past : Span) (tokens : List Token) :
    (initialiser units).Meets W P past tokens fun n used errors =>
      IsBuilt initialisers (9 * units) used errors n := by
  refine meets_if (fun hnext => .of_brace hnext fun Q _ => meets_bracedList units past hnext) ?_
  refine (finds_expression units past tokens).bind fun node? mid used errors hnode => ?_
  cases node? with
  | some node =>
      exact meets_pure ((hnode node rfl).mono (List.subset_cons_self _ _) (Nat.le_refl _) (Nat.le_refl _)
        (Nat.le_refl _))
  | none =>
      refine meets_report _ (meets_look rfl ?_)
      refine .free (anchored_leave (leads_skip tracks_afterExpression)) fun _ _ => ?_
      exact meets_pure ((isBuilt_unknown _ (by decide)).within (Nat.le_refl _) (Nat.le_refl _)
        (Nat.le_add_left _ _))

theorem meets_initialValue (units : Nat) (past : Span) (tokens : List Token) :
    (initialValue units).Meets W P past tokens fun nodes used errors =>
      Built [.optional initialisers] (9 * units) used errors nodes := by
  refine .free (anchored_accept (takes_symbol (by decide))) fun found mid =>
    meets_ite ?_ (meets_pure .absent)
  exact (meets_initialiser units past mid).bind fun _ _ _ _ hn => meets_pure (.present hn)

omit hW in
/-- Giving up leaves a stand-in, which an error reported before pays for. -/
theorem meets_abandon (start : Token) (past : Span) (tokens : List Token) :
    (abandon start).Meets AnyWay P past tokens fun n _ _ => n = leaf .unknown start :=
  .free (anchored_leave (leads_skip tracks_afterExpression)) fun _ _ =>
    .free (anchored_accept takes_semicolon) fun _ _ => meets_pure rfl

theorem finds_variableDeclaration {units : Nat} (hbound : 9 * units ≤ bound)
    (htypes : nestingLimit ≤ bound) : Finds W P statements (bound + 1) 0 (variableDeclaration units) := by
  intro past tokens
  refine Meets.rewinding (meets_look rfl ?_) nofun
  refine (meets_typeQualifiers past tokens).bind fun qualifiers left used errors hqualifiers => ?_
  have hgiveUp : ∀ (problem : Problem) (start : Token) (mid : List Token) {count failed : Nat},
      Meets W P (do
        report problem
        return some (← abandon start)) past mid fun node? used' errors' => ∀ n ∈ node?,
          IsBuilt statements (bound + 1) (count + used') (failed + errors') n := by
    intro problem start mid count failed
    refine meets_report problem ((meets_abandon start past mid).bind fun _ _ _ _ hn => meets_pure ?_)
    intro _ h
    obtain rfl := Option.some.inj h
    exact hn ▸ (isBuilt_unknown _ (by decide)).within (Nat.le_refl _) (Nat.le_refl _) (by omega)
  refine (meets_typename past left).bind fun type? mid used' errors' htype => ?_
  cases type? with
  | none =>
      refine meets_ite (meets_pure nofun) ?_
      simpa only [← Nat.add_assoc, Nat.add_zero] using hgiveUp _ _ mid
  | some type =>
      refine meets_identifier (meets_ite (meets_pure nofun) ?_) ?_
      · simpa only [← Nat.add_assoc, Nat.add_zero] using hgiveUp _ _ mid
      intro name named hname
      refine (meets_initialValue units past named).bind fun value _ used'' errors'' hvalue => ?_
      refine .free (anchored_expect takes_semicolon) fun _ _ => meets_pure fun _ h => Option.some.inj h ▸ ?_
      have hplaced : Built NodeKind.variableDeclaration.places bound (used' + used'')
          (0 + (errors' + 0) + errors'') (qualifiers ++ [type, name] ++ value) :=
        (hqualifiers.append ((Built.one ((htype type rfl).2.within htypes (by omega) (Nat.le_refl _))).append
          (.one hname))).append (hvalue.mono hbound (by omega) (Nat.le_refl _))
      exact (Built.node .variableDeclaration _ hplaced (by decide) (by decide)).within (Nat.le_refl _)
        (by omega) (by omega)

theorem meets_returnStatement {units : Nat} (hbound : 9 * units ≤ bound) (past : Span)
    (hnext : Takeable W P tokens) : (returnStatement units).Meets W P past tokens fun n used errors =>
      IsBuilt statements (bound + 1) used errors n := by
  refine meets_take hnext fun token mid => ?_
  have hend : ∀ (value? : Option Node) (left : List Token) {used errors : Nat},
      (∀ n ∈ value?, IsBuilt expressions bound used errors n) → Meets W P (do
        expect ';'
        return Node.mk .returnStatement token value?.toList) past left fun n used' errors' =>
          IsBuilt statements (bound + 1) (1 + (used + used')) (errors + errors') n :=
    fun value? left _ _ h => .free (anchored_expect takes_semicolon) fun _ _ => meets_pure
      ((Built.node .returnStatement token (Built.toList h) (by decide) (by decide)).within (Nat.le_refl _)
        (by omega) (Nat.le_refl _))
  refine meets_look rfl ?_
  split
  · have hbare := @hend none mid 0 0 nofun
    simpa using hbare
  · exact (finds_expression units past mid).bind fun value? left _ _ h =>
      hend value? left fun n hn => (h n hn).within hbound (Nat.le_refl _) (Nat.le_refl _)

theorem finds_expressionStatement {units : Nat} (hbound : 9 * units ≤ bound) :
    Finds W P statements (bound + 1) 1 (expressionStatement units) := by
  intro past tokens
  refine meets_look rfl ((finds_expression units past tokens).bind fun node? left _ _ hnode => ?_)
  cases node? with
  | none => exact meets_pure nofun
  | some node =>
      have hplaced : Built NodeKind.expressionStatement.places bound _ _ [node] :=
        .one ((hnode node rfl).within hbound (Nat.le_refl _) (Nat.le_refl _))
      exact .free (anchored_expect takes_semicolon) fun _ _ => meets_pure fun _ h => Option.some.inj h ▸
        Built.node .expressionStatement _ hplaced (by decide) (by decide)

/-- A statement is at most one higher than the number of its tokens. -/
theorem finds_statement {block : Production Node} {units : Nat} (hbound : 9 * units ≤ bound)
    (htypes : nestingLimit ≤ bound)
    (hblock : ∀ Q [Hereditary Q] past tokens, tokens.head?.any (fun t => t.isSymbol '{') = true →
      block.Meets W Q past tokens fun n used errors => IsBuilt statements (bound + 1) (used + 1) errors n) :
    Finds W P statements (bound + 1) 1 (statement block units) := by
  intro past tokens
  refine meets_takeIf takes_semicolon ?_ fun semicolon _ => meets_pure fun _ h => Option.some.inj h ▸
    Built.leaf .nil (by decide) (by decide)
  refine meets_if (fun hnext => ?_) (meets_if (fun hnext => ?_) ?_)
  · have hmeets : block.Meets W P past tokens _ := .of_brace hnext fun Q _ => hblock Q past tokens hnext
    exact hmeets.bind fun _ _ _ _ hn => meets_pure fun _ h => Option.some.inj h ▸ hn
  · have hword : Takeable W P tokens := (takes_plain fun _ => plain_of_isWord).takeable hnext
    exact (meets_returnStatement hbound past hword).bind fun _ _ _ _ hn => meets_pure fun _ h =>
      Option.some.inj h ▸ hn.within (Nat.le_refl _) (Nat.le_succ _) (Nat.le_refl _)
  · refine (finds_variableDeclaration hbound htypes past tokens).bind fun node? last used errors hnode => ?_
    cases node? with
    | some node =>
        exact meets_pure fun _ h => Option.some.inj h ▸ (hnode node rfl).within (Nat.le_refl _)
          (Nat.le_succ _) (Nat.le_refl _)
    | none =>
        exact (finds_expressionStatement hbound past last).mono fun _ _ _ hn n h =>
          (hn n h).within (Nat.le_refl _) (by omega) (by omega)

omit hW in
theorem meets_nextStatement [Hereditary P] {statement : Production (Option Node)}
    (h : Finds AnyWay P statements bound 1 statement) {used errors : Nat} (mid : List Token)
    (hnodes : Built [.many statements] bound (used + 1) errors nodes) :
    (nextStatement statement nodes).Meets AnyWay P past mid fun turned used' errors' => TurnHolds
      (fun nodes => Built [.many statements] bound (used + used' + 1) (errors + errors') nodes) turned := by
  refine .free (anchored_accept (takes_any _)) fun _ left => meets_ite (meets_pure hnodes) ?_
  refine meets_look rfl (meets_ite (.free (anchored_report _) fun _ _ => meets_pure hnodes) ?_)
  refine ((h past left).progressing nofun).bind fun node? last used' errors' hnode => ?_
  have hlater := hnodes.mono (Nat.le_refl _) (show used + 1 ≤ used + used' + 1 by omega) (Nat.le_refl _)
  cases node? with
  | some node =>
      exact meets_pure (hlater.concat ((hnode node rfl).within (Nat.le_refl _) (by omega) (Nat.le_refl _)))
  | none =>
      refine .free (anchored_report _) fun _ _ =>
        .free (anchored_leave (leads_skip tracks_afterStatement)) fun _ _ => meets_pure ?_
      exact hlater.mono (Nat.le_refl _) (Nat.le_refl _) (by omega)

/-- The nesting of a block comes from its expressions, or from the types of its variables. -/
def blockNesting (units : Nat) : Nat := max (9 * units) (units + nestingLimit + 1)

/-- What a block gives: with no nesting left a stand-in takes its place. -/
def IsBlockBuilt (units height errors : Nat) (n : Node) : Prop :=
  IsBuilt (if units = 0 then [.unknown] else [.compoundStatement]) (blockNesting units) height errors n

/-- Statements, with blocks among them. -/
theorem finds_inner (units : Nat)
    (hblock : ∀ Q [Hereditary Q] past tokens, tokens.head?.any (fun t => t.isSymbol '{') = true →
      (block units).Meets W Q past tokens fun n used errors => IsBlockBuilt units (used + 1) errors n) :
    Finds W P statements (max (9 * units) (units + nestingLimit) + 1) 1 (statement (block units) units) := by
  refine finds_statement (Nat.le_max_left _ _) ?_ fun Q _ past tokens h => ?_
  · exact (Nat.le_add_left _ units).trans (Nat.le_max_right _ _)
  · refine (hblock Q past tokens h).mono fun _ _ _ hn => hn.mono ?_ ?_ (Nat.le_refl _) (Nat.le_refl _)
    · split <;> decide
    · simp only [blockNesting]
      omega

omit [Enclosure P] in
/-- Statements lie on a way up to the brace that closes their block. -/
theorem way_of_turns {statement : Production (Option Node)} {rest : List Token}
    (h : Anchored W P statement) {nodes last : List Node}
    (hturns : Turns (nextStatement statement) past nodes tokens last rest) :
    ∃ closing, closing.isSymbol '}' = true ∧ W tokens (closing :: rest) := by
  induction hturns with
  | done hdone =>
      obtain ⟨⟨closing, hclosing, rfl⟩, -⟩ := reads_nextStatement_done.mp hdone
      exact ⟨closing, hclosing, hW.refl _⟩
  | again hagain _ _ ih =>
      obtain ⟨-, node, hstatement, -⟩ := reads_nextStatement_again.mp hagain
      obtain ⟨closing, hclosing, hway⟩ := ih
      exact ⟨closing, hclosing, hW.trans ((h past _).way hstatement) hway⟩

omit [Enclosure P] in
theorem way_of_block {units : Nat} {opening : Token} {rest : List Token}
    (h : Anchored W P (statement (block units) units))
    (hreads : (block (units + 1)).Reads past (opening :: tokens) n rest) :
    ∃ closing, closing.isSymbol '}' = true ∧ W tokens (closing :: rest) := by
  obtain ⟨nodes, hnodes, -⟩ := reads_block_succ.mp hreads
  refine way_of_turns h (Turns.of_reads (I := fun _ => True) (fun _ _ _ _ _ hagain => ⟨trivial, ?_⟩)
    trivial hnodes)
  obtain ⟨-, _, -, hlt, -⟩ := reads_nextStatement_again.mp hagain
  exact hlt

theorem meets_block [Hereditary P] (units : Nat) (past : Span)
    (hnext : tokens.head?.any (fun t => t.isSymbol '{') = true) :
    (block units).Meets W P past tokens fun n used errors => IsBlockBuilt units (used + 1) errors n := by
  induction units generalizing P past tokens with
  | zero =>
      have hmakes : Makes W P [.unknown] (blockNesting 0) 1 (block 0) :=
        makes_tooDeep (fun tokens => leads_suffix (afterGroup_suffix 0 tokens)) (by decide)
      exact hmakes past tokens
  | succ units ih =>
      have hstatement : Finds W P _ _ 1 (statement (block units) units) :=
        finds_inner units fun Q _ past tokens h => ih past h
      have hblock : (block (units + 1)).Meets AnyWay P past tokens fun n used errors =>
          IsBlockBuilt (units + 1) (used + 1) errors n := by
        refine meets_take ((takes_any _).takeable hnext) fun token mid => ?_
        refine Meets.bind (meets_repeatWhile (I := fun nodes used errors =>
          Built [.many statements] (max (9 * units) (units + nestingLimit) + 1) (used + 1) errors nodes)
          ?_ .none) ?_
        · exact fun nodes _ _ mid hnodes =>
            meets_nextStatement (fun past tokens => (hstatement past tokens).anyWay) mid hnodes
        · refine fun nodes _ used errors hnodes => meets_pure ((Built.node .compoundStatement token hnodes
            (by simp) (by decide)).within ?_ (by omega) (Nat.le_refl _))
          simp only [blockNesting]
          omega
      refine { hblock with crosses := fun hsilent => ?_ }
      obtain ⟨opening, mid, rfl, hopening⟩ := head?_any_eq_true.mp hnext
      obtain ⟨closing, hclosing, hway⟩ :=
        way_of_block (fun past tokens => (hstatement past tokens).forget) (reads_of_messages_eq_nil hsilent)
      exact hW.braces hopening hclosing hway

theorem anchored_statement (units : Nat) : Anchored W P (statement (block units) units) :=
  fun past tokens =>
    (finds_inner units (fun _ _ past _ h => meets_block units past h) past tokens).forget

end Statements

/-! ### Declarations -/

section Heads

variable [Crossing W] [Enclosure P]

theorem finds_attributeItem : Finds W P [.attr] (9 * nestingLimit + 2) 0 attributeItem := by
  intro past tokens
  refine meets_identifier (meets_pure nofun) fun name mid _ => meets_if (fun hnext => ?_) ?_
  · have hopening : Takeable W P mid := (takes_symbol (by decide)).takeable hnext
    refine (meets_argumentList (finds_expression nestingLimit) past hopening).bind
      fun arguments _ used errors harguments => ?_
    have hplaced : Built NodeKind.attr.places _ _ _ [arguments] := .present harguments.2
    exact meets_look rfl (meets_pure fun _ h => Option.some.inj h ▸ (Built.node .attr name.token hplaced
      (by simp) (by decide)).within (Nat.le_refl _) (by omega) (Nat.le_refl _))
  · exact meets_look rfl (meets_pure fun _ h => Option.some.inj h ▸
      Built.leaf (.absent .nil) (by simp) (by decide))

theorem finds_attributeList : Finds W P [.attributeList] (9 * nestingLimit + 3) 0 attributeList := by
  intro past tokens
  refine meets_look rfl ?_
  cases hopening : attributeOpening? tokens with
  | none => exact meets_pure nofun
  | some token =>
      have hne : tokens ≠ [] := by
        rintro rfl
        cases hopening
      have hleads : Leads W P tokens (tokens.drop 2) := by
        obtain ⟨first, second, mid, hfirst, hsecond, rfl, -⟩ := attributeOpening?_eq_some.mp hopening
        have hbrackets : ∀ t ∈ [first, second], Plain t := by
          simp only [List.forall_mem_cons, List.not_mem_nil, false_imp_iff, implies_true, and_true]
          exact ⟨plain_of_isSymbol hfirst (by decide), plain_of_isSymbol hsecond (by decide)⟩
        exact leads_append hbrackets
      refine meets_skip Nat.two_pos hne hleads ?_
      refine (meets_separated finds_attributeItem past _).bind fun items left used errors hitems => ?_
      have hnode : ∀ used' errors', IsBuilt [.attributeList] (9 * nestingLimit + 3) (1 + (used + used'))
          (errors + errors') (.mk .attributeList token items.nodes) := fun _ _ =>
        (Built.node .attributeList token hitems (by simp) (by decide)).within (Nat.le_refl _) (by omega)
          (by omega)
      obtain ⟨hunreported, hreported⟩ := anchored_closeAttributes (W := W) (P := P) 2
      cases items.complete with
      | true => exact .free hunreported fun _ _ => meets_pure fun _ h => Option.some.inj h ▸ hnode _ _
      | false =>
          exact meets_report _ (.free hreported fun _ _ => meets_pure fun _ h =>
            Option.some.inj h ▸ hnode _ _)

theorem finds_parameter : Finds W P [.parameter] (nestingLimit + 1) 0 parameter := by
  intro past tokens
  refine Meets.rewinding ?_ nofun
  refine (meets_typeQualifiers past tokens).bind fun qualifiers left used errors hqualifiers => ?_
  refine (meets_typename past left).bind fun type? mid used' errors' htype => ?_
  cases type? with
  | none => exact meets_pure nofun
  | some type =>
      refine meets_identifier (meets_pure nofun) fun name _ hname => ?_
      have hplaced : Built NodeKind.parameter.places nestingLimit used' (0 + (errors' + 0))
          (qualifiers ++ [type, name]) :=
        hqualifiers.append ((Built.one (htype type rfl).2).append (.one hname))
      exact meets_pure fun _ h => Option.some.inj h ▸ (Built.node .parameter _ hplaced (by simp)
        (by decide)).within (Nat.le_refl _) (by omega) (by omega)

theorem meets_parameterList (past : Span) (hnext : Takeable W P tokens) :
    parameterList.Meets W P past tokens fun n used errors =>
      0 < used ∧ IsBuilt [.parameterList] (nestingLimit + 2) used errors n :=
  meets_listed finds_parameter _ rfl (by decide) past hnext

end Heads

section Declarations

variable [Hereditary P]

theorem meets_functionBody (past : Span) (tokens : List Token) :
    functionBody.Meets AnyWay P past tokens fun nodes used errors =>
      Built [.optional [.compoundStatement]] (blockNesting nestingLimit) (used + 1) errors nodes := by
  refine meets_if (fun hnext => ?_) (.free (anchored_expect takes_semicolon) fun _ _ => meets_pure .absent)
  exact (meets_block nestingLimit past hnext).bind fun _ _ _ _ hn => meets_pure (.present hn)

/-- The deepest nesting of a function, which comes from the arguments of its attributes. -/
def functionNesting : Nat := 9 * nestingLimit + 4

/-- A type, a name and a parenthesis stand before the body, so that two steps of its height are paid
for. -/
theorem meets_functionDeclaration (past : Span) (tokens : List Token) :
    functionDeclaration.Meets AnyWay P past tokens fun node? used errors => ∀ n ∈ node?,
      0 < used ∧ IsBuilt [.functionDeclaration] functionNesting (used - 1) errors n := by
  refine Meets.rewinding ?_ nofun
  refine (finds_attributeList past tokens).bind fun attributes? mid used₁ errors₁ hattributes => ?_
  refine (meets_typeQualifiers past mid).bind fun qualifiers left used₂ errors₂ hqualifiers => ?_
  refine (meets_typename past left).bind fun type? typed used₃ errors₃ htype => ?_
  cases type? with
  | none => exact meets_pure nofun
  | some type =>
      obtain ⟨htaken, htype⟩ := htype type rfl
      refine meets_identifier (meets_pure nofun) fun name named hname => ?_
      refine meets_unless (meets_pure nofun) fun hnext => ?_
      refine (meets_parameterList past ((takes_any _).takeable hnext)).bind
        fun parameters bodied used₄ errors₄ hparameters => ?_
      obtain ⟨hopening, hparameters⟩ := hparameters
      refine (meets_functionBody past bodied).bind fun body _ used₅ errors₅ hbody => meets_pure ?_
      let height := used₁ + used₂ + used₃ + used₄ + used₅ - 1
      have hfront : Built _ (9 * nestingLimit + 3) height _ (attributes?.toList ++ qualifiers) :=
        (Built.toList fun n hn => (hattributes n hn).within (Nat.le_refl _) (by omega) (Nat.le_refl _)).append
          hqualifiers
      have hmiddle : Built _ (9 * nestingLimit + 3) height _ [type, name, parameters] :=
        (Built.one (htype.within (by decide) (by omega) (Nat.le_refl _))).append
          ((Built.one hname).append (.one (hparameters.within (by decide) (by omega) (Nat.le_refl _))))
      have hplaced : Built NodeKind.functionDeclaration.places _ _ _ _ :=
        (hfront.append hmiddle).append (hbody.mono (by decide) (by omega) (Nat.le_refl _))
      exact fun _ h => Option.some.inj h ▸ ⟨by omega, (Built.node .functionDeclaration _ hplaced (by simp)
        (by decide)).within (Nat.le_refl _) (by omega) (by omega)⟩

/-- A turn adds a declaration to those found before. -/
theorem meets_nextDeclaration {used errors : Nat} (mid : List Token)
    (h : Built [.many [.functionDeclaration]] functionNesting (used - 1) errors nodes ∧
      (nodes ≠ [] → 0 < used)) :
    (nextDeclaration nodes).Meets AnyWay P past mid fun turned used' errors' => TurnHolds (fun nodes =>
      Built [.many [.functionDeclaration]] functionNesting (used + used' - 1) (errors + errors') nodes ∧
        (nodes ≠ [] → 0 < used + used')) turned := by
  obtain ⟨hnodes, hused⟩ := h
  refine meets_look rfl (meets_ite (meets_pure ⟨hnodes, hused⟩) ?_)
  refine (meets_functionDeclaration past mid).bind fun node? last used' errors' hnode => ?_
  have hlater := hnodes.mono (Nat.le_refl _) (show used - 1 ≤ used + used' - 1 by omega) (Nat.le_refl _)
  cases node? with
  | some node =>
      obtain ⟨htaken, hnode⟩ := hnode node rfl
      exact meets_pure ⟨hlater.concat (hnode.within (Nat.le_refl _) (by omega) (Nat.le_refl _)),
        fun _ => by omega⟩
  | none =>
      refine .free (anchored_report _) fun _ _ =>
        .free (anchored_leave fun tokens => leads_suffix (afterDeclaration_suffix 0 tokens)) fun _ _ =>
          meets_pure ?_
      exact ⟨hlater.mono (Nat.le_refl _) (Nat.le_refl _) (by omega), fun hne => by have := hused hne; omega⟩

/-- A program text is well built, and no higher than there are tokens. -/
theorem meets_programUnit (past : Span) (tokens : List Token) :
    programUnit.Meets AnyWay P past tokens fun n used errors =>
      IsBuilt [.programUnit] (functionNesting + 1) used errors n := by
  refine meets_look rfl ?_
  refine Meets.bind (meets_repeatWhile (I := fun nodes used errors =>
    Built [.many [.functionDeclaration]] functionNesting (used - 1) errors nodes ∧
      (nodes ≠ [] → 0 < used)) ?_ ?_) ?_
  · exact fun nodes _ _ mid h => meets_nextDeclaration mid h
  · exact ⟨.none, nofun⟩
  · rintro nodes _ used errors ⟨hnodes, hused⟩
    cases nodes with
    | nil =>
        refine meets_pure (IsBuilt.within ?_ (Nat.zero_le _) (Nat.zero_le _) (Nat.zero_le _))
        exact Built.leaf (.noMore .nil) (by simp) (by decide)
    | cons first others =>
        have hpos := hused (List.cons_ne_nil first others)
        exact meets_pure ((Built.node .programUnit _ hnodes (by simp) (by decide)).within (Nat.le_refl _)
          (by omega) (Nat.le_refl _))

end Declarations

/-! ### Whole program texts -/

/-- The tree of a token list is well built, no higher than there are tokens and with no more stand-ins than
messages. -/
theorem isBuilt_parse (tokens : List Token) :
    IsBuilt [.programUnit] (functionNesting + 1) tokens.length (parse tokens).2.length (parse tokens).1 := by
  rw [Parser.parse_eq]
  have hmeets : programUnit.Meets AnyWay AnyPlace (pastEnd tokens) tokens _ := meets_programUnit _ _
  obtain ⟨used, errors, hused, herrors, hbuilt⟩ := hmeets.paid
  exact hbuilt.within (Nat.le_refl _) (by omega) herrors

/-- Every message about a token list is an error at one of the tokens, or just past the last one. -/
theorem mem_parse_messages {m : Message} (h : m ∈ (parse tokens).2) :
    ∃ span problem, m = Message.error span (Problem.text problem) ∧
      ((∃ t ∈ tokens, span = t.span) ∨ ∃ t, tokens.getLast? = some t ∧
        span = Span.single t.span.last.nextColumn) := by
  rw [Parser.parse_eq] at h
  have hmeets : programUnit.Meets AnyWay (LastPart tokens) (pastEnd tokens) tokens _ := meets_programUnit _ _
  obtain ⟨left, problem, hleft, rfl⟩ := (hmeets.within List.suffix_rfl).2 m h
  refine ⟨_, problem, rfl, ?_⟩
  cases left with
  | cons t rest => exact .inl ⟨t, List.IsSuffix.subset hleft List.mem_cons_self, rfl⟩
  | nil =>
      right
      cases hlast : tokens.getLast? with
      | some t => exact ⟨t, rfl, by simp [anchor, pastEnd, hlast]⟩
      | none =>
          -- nothing is reported about no tokens
          rw [List.getLast?_eq_none_iff.mp hlast] at h
          cases h

theorem isError_of_mem_parse {m : Message} (h : m ∈ (parse tokens).2) : m.isError = true := by
  obtain ⟨span, problem, rfl, -⟩ := mem_parse_messages h
  rfl

end Grammar

/-- Whatever the tokens are, the tree is a program unit, and the children of every node in it fill
the places that its kind has for them. -/
theorem parse_fills_places (tokens : List Token) :
    (parse tokens).1.kind = .programUnit ∧
      ∀ entry ∈ (parse tokens).1.preorder,
        Fills entry.2.kind.places (entry.2.children.map Node.kind) := by
  have h := Grammar.isBuilt_parse tokens
  exact ⟨List.mem_singleton.mp h.kind, h.wellBuilt⟩

/-- Whatever the tokens are, the tree holds no more stand-ins than there are errors among the
messages. -/
theorem standIns_parse_le (tokens : List Token) :
    (parse tokens).1.standIns ≤ (parse tokens).2.countP Message.isError := by
  rw [List.countP_eq_length.mpr fun _ => Grammar.isError_of_mem_parse]
  exact (Grammar.isBuilt_parse tokens).standIns

end Shading
