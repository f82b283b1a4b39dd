import ClassSynth.Proofs.Template.Parser
import ClassSynth.Proofs.Template.Tokens

/-!
# The parser accepts the grammar and nothing else

An expression of the grammar is read, whatever follows it, as long as that does not go on with it:
neither a dot behind a plain name, nor a parenthesis behind a name, nor a dot behind an expression
in parentheses. The recursion follows the derivation; every function is left with four times as
much fuel as it has tokens.

Main result: `Template.parser_exact`, the parser returns the tree of the only derivation of all the
tokens, and fails if they have none; whatever text the tokens come from, each of them is spelled as
its kind asks.
-/

namespace ClassSynth

namespace Template.Parser

/-! ## Expressions of the grammar -/

variable {as : List Token} {args : List Template}

theorem not_selectsName (h : startsWith .dot tokens = false) : ¬ SelectsName tokens := by
  rintro ⟨d, x, rest, rfl, hd, -⟩
  simp [startsWith, hd] at h

theorem startsWith_cons (h : t.kind ≠ kind) : startsWith kind (t :: rest) = false := by
  simpa [startsWith] using h

theorem startsWith_arguments (h : Arguments as args) (rest : List Token) :
    startsWith .leftParen (as ++ rest) = true := by
  obtain ⟨a, more, rfl, ha⟩ := h.exists_leftParen
  simpa [startsWith] using ha

theorem not_selectsName_arguments (h : Arguments as args) (rest : List Token) :
    ¬ SelectsName (as ++ rest) := by
  obtain ⟨a, more, rfl, ha⟩ := h.exists_leftParen
  exact not_selectsName (startsWith_cons (by rw [ha]; decide))

theorem run_selectors_nil (fuel : Nat) (e : Template) (h : startsWith .dot rest = false) :
    selectors (fuel + 1) e rest = .ok (e, rest) := by
  rw [selectors]
  exact run_bind (run_accept_of_not h)

theorem run_selectors_field {d x : Token} (hd : d.kind = .dot) (hx : x.kind = .identifier)
    (hrest : startsWith .leftParen rest = false) :
    selectors (fuel + 1) e (d :: x :: rest) = selectors fuel (.field e x.text) rest := by
  rw [selectors]
  refine (run_bind (run_accept hd)).trans ((run_bind (run_expect _ hx)).trans ?_)
  refine (run_bind (run_nextIs _ _)).trans ?_
  rw [hrest]
  rfl

theorem run_selectors_call {d x : Token} {more : List Token} (hd : d.kind = .dot)
    (hx : x.kind = .identifier) (hstart : startsWith .leftParen more = true)
    (hargs : arguments fuel more = .ok (args, rest)) :
    selectors (fuel + 1) e (d :: x :: more) = selectors fuel (.call (some e) x.text args) rest := by
  rw [selectors]
  refine (run_bind (run_accept hd)).trans ((run_bind (run_expect _ hx)).trans ?_)
  refine (run_bind (run_nextIs _ _)).trans ?_
  rw [hstart]
  exact run_bind hargs

theorem run_primary_parens {a b : Token} (ha : a.kind = .leftParen) (hb : b.kind = .rightParen)
    (h : expr fuel (tokens ++ b :: rest) = .ok (e, b :: rest)) :
    primary (fuel + 1) (a :: (tokens ++ b :: rest)) = .ok (e, rest) := by
  rw [primary]
  refine (run_bind (x := get) rfl).trans ((run_bind (x := advance) rfl).trans ?_)
  simp only [ha]
  exact (run_bind h).trans (run_bind (run_expect _ hb))

theorem run_primary_new {x : Token} {names more : List Token} (hx : x.kind = .new)
    (hnames : DottedName names parts) (hmore : ¬ SelectsName more)
    (hargs : arguments fuel more = .ok (args, rest)) :
    primary (fuel + 1) (x :: (names ++ more)) = .ok (.new (".".intercalate parts) args, rest) := by
  rw [primary]
  refine (run_bind (x := get) rfl).trans ((run_bind (x := advance) rfl).trans ?_)
  simp only [hx]
  exact (run_bind (run_dotted hnames hmore)).trans (run_bind hargs)

/-- A dotted name is read before it is known whether its last part is called. -/
theorem run_primary_name {names more : List Token} (hnames : DottedName names parts)
    (hmore : ¬ SelectsName more) : primary (fuel + 1) (names ++ more) =
      if startsWith .leftParen more then (arguments fuel >>= callPath parts) more
      else .ok (.path parts, more) := by
  have hdotted := run_dotted hnames hmore
  obtain ⟨x, others, rfl, hx⟩ := hnames.exists_name
  rw [primary]
  refine (run_bind (x := get) rfl).trans ((run_bind (x := advance) rfl).trans ?_)
  simp only [hx]
  refine (run_bind (x := set _) rfl).trans ((run_bind hdotted).trans ?_)
  refine (run_bind (run_nextIs _ _)).trans ?_
  split <;> rfl

/-- Nothing of these tokens goes on with an expression before them. -/
structure Ends (tokens : List Token) : Prop where
  leftParen : startsWith .leftParen tokens = false
  dot : startsWith .dot tokens = false

theorem ends_cons (h : t.kind = kind) (hparen : kind ≠ .leftParen)
    (hdot : kind ≠ .dot) (rest : List Token) : Ends (t :: rest) :=
  ⟨startsWith_cons (h ▸ hparen), startsWith_cons (h ▸ hdot)⟩

theorem Ends.not_selectsName (h : Ends tokens) : ¬ SelectsName tokens :=
  Parser.not_selectsName h.dot

/-- An expression is read, if nothing selects a member behind it. -/
theorem run_expr_of_selectors (hpos : 0 < ts.length) (hfuel : 4 * ts.length ≤ fuel + 1)
    (hend : Ends rest) (h : ∃ left, fuel ≤ left + ts.length ∧
      expr (fuel + 1) (ts ++ rest) = selectors left e rest) :
    expr (fuel + 1) (ts ++ rest) = .ok (e, rest) := by
  obtain ⟨left, hleft, hrun⟩ := h
  obtain ⟨left, rfl⟩ : ∃ n, left = n + 1 := ⟨left - 1, by omega⟩
  rw [hrun, run_selectors_nil left e hend.dot]

theorem run_primary_call {names : List Token} {qualifier : List String} {name : String}
    (hnames : DottedName names (qualifier ++ [name])) (has : Arguments as args)
    (hargs : arguments fuel (as ++ rest) = .ok (args, rest)) :
    primary (fuel + 1) (names ++ as ++ rest) =
      .ok (.call (qualifierOf qualifier) name args, rest) := by
  rw [List.append_assoc, run_primary_name hnames (not_selectsName_arguments has rest),
    if_pos (startsWith_arguments has rest), run_bind hargs, run_callPath]

theorem run_arguments_none {a b : Token} (ha : a.kind = .leftParen) (hb : b.kind = .rightParen) :
    arguments (fuel + 1) (a :: b :: rest) = .ok ([], rest) := by
  rw [arguments]
  exact (run_bind (run_expect _ ha)).trans (run_bind (run_accept hb))

theorem run_arguments_some {a b : Token} (ha : a.kind = .leftParen) (hts : Items ts args)
    (h : moreArguments fuel (ts ++ b :: rest) = .ok (args, rest)) :
    arguments (fuel + 1) (a :: (ts ++ b :: rest)) = .ok (args, rest) := by
  obtain ⟨x, more, rfl, hx⟩ := hts.exists_first
  rw [arguments]
  refine (run_bind (run_expect _ ha)).trans (Eq.trans ?_ h)
  exact run_bind (run_accept_of_not (startsWith_cons hx))

theorem run_items_last {b : Token} (hb : b.kind = .rightParen)
    (h : expr fuel (ts ++ b :: rest) = .ok (e, b :: rest)) :
    moreArguments (fuel + 1) (ts ++ b :: rest) = .ok ([e], rest) := by
  rw [moreArguments]
  exact (run_bind h).trans (run_bind (run_accept hb))

theorem run_items_more {c : Token} {more : List Token} (hc : c.kind = .comma)
    (h : expr fuel (ts ++ c :: more) = .ok (e, c :: more))
    (hmore : moreArguments fuel more = .ok (args, rest)) :
    moreArguments (fuel + 1) (ts ++ c :: more) = .ok (e :: args, rest) := by
  rw [moreArguments]
  refine (run_bind h).trans ((run_bind (run_accept_of_not (startsWith_cons ?_))).trans ?_)
  · rw [hc]; decide
  · exact (run_bind (run_expect _ hc)).trans (run_bind hmore)

mutual

/-- A primary is read, if no plain name goes on behind it. -/
theorem run_primary (fuel : Nat) (rest : List Token) {ts : List Token} {e : Template} :
    Primary ts e → 4 * ts.length ≤ fuel + 2 → startsWith .leftParen rest = false →
      (∀ parts, DottedName ts parts → ¬ SelectsName rest) →
      primary (fuel + 1) (ts ++ rest) = .ok (e, rest)
  | .literal h, _, _, _ => run_literal h fuel rest
  | .parens ha h hb, hfuel, _, _ => by
    simp only [List.length_cons, List.length_append, List.length_nil] at hfuel
    obtain ⟨fuel, rfl⟩ : ∃ n, fuel = n + 1 := ⟨fuel - 1, by omega⟩
    have hend := ends_cons hb (by decide) (by decide) rest
    have hinner := run_expr_selectors fuel _ h (by omega) hend.leftParen
      fun _ _ => hend.not_selectsName
    rw [List.cons_append, List.append_assoc, List.singleton_append]
    exact run_primary_parens ha hb (run_expr_of_selectors h.length_pos (by omega) hend hinner)
  | .new hx hnames hargs, hfuel, _, _ => by
    simp only [List.length_cons, List.length_append] at hfuel
    rw [List.cons_append, List.append_assoc]
    exact run_primary_new hx hnames (not_selectsName_arguments hargs rest)
      (run_arguments fuel rest hargs (by omega))
  | .path h, _, hparen, hmax => by
    rw [run_primary_name h (hmax _ h), hparen, if_neg Bool.false_ne_true]
  | .call hnames hargs, hfuel, _, _ => by
    have hpos := (Expression.primary (.path hnames)).length_pos
    rw [List.length_append] at hfuel
    exact run_primary_call hnames hargs (run_arguments fuel rest hargs (by omega))

/-- An expression is read, and then what selects members behind it. -/
theorem run_expr_selectors (fuel : Nat) (rest : List Token) {ts : List Token} {e : Template} :
    Expression ts e → 4 * ts.length ≤ fuel + 1 → startsWith .leftParen rest = false →
      (∀ parts, DottedName ts parts → ¬ SelectsName rest) →
      ∃ left, fuel ≤ left + ts.length ∧ expr (fuel + 1) (ts ++ rest) = selectors left e rest
  | .primary h, hfuel, hparen, hmax => by
    have hpos := (Expression.primary h).length_pos
    obtain ⟨fuel, rfl⟩ : ∃ n, fuel = n + 1 := ⟨fuel - 1, by omega⟩
    refine ⟨fuel + 1, Nat.le_add_right _ _, ?_⟩
    rw [expr]
    exact run_bind (run_primary fuel rest h hfuel hparen hmax)
  | @Expression.field _ _ d x h hplain hd hx, hfuel, hparen, _ => by
    rw [List.length_append, List.length_cons, List.length_singleton] at hfuel
    obtain ⟨left, hleft, hrun⟩ := run_expr_selectors fuel (d :: x :: rest) h (by omega)
      (startsWith_cons (by rw [hd]; decide)) fun parts hts => absurd hts (hplain parts)
    obtain ⟨left, rfl⟩ : ∃ n, left = n + 1 := ⟨left - 1, by omega⟩
    refine ⟨left, by rw [List.length_append, List.length_cons]; omega, ?_⟩
    rw [List.append_assoc, List.cons_append, List.singleton_append, hrun,
      run_selectors_field hd hx hparen]
  | @Expression.call _ as _ d x _ h hplain hd hx hargs, hfuel, _, _ => by
    rw [List.length_append, List.length_cons, List.length_cons] at hfuel
    obtain ⟨left, hleft, hrun⟩ := run_expr_selectors fuel (d :: x :: (as ++ rest)) h (by omega)
      (startsWith_cons (by rw [hd]; decide)) fun parts hts => absurd hts (hplain parts)
    obtain ⟨left, rfl⟩ : ∃ n, left = n + 1 := ⟨left - 1, by omega⟩
    refine ⟨left, by rw [List.length_append, List.length_cons]; omega, ?_⟩
    rw [List.append_assoc, List.cons_append, List.cons_append, hrun, run_selectors_call hd hx
      (startsWith_arguments hargs rest) (run_arguments left rest hargs (by omega))]

/-- Arguments are read up to their closing parenthesis. -/
theorem run_arguments (fuel : Nat) (rest : List Token) {ts : List Token} {args : List Template} :
    Arguments ts args → 4 * ts.length ≤ fuel → arguments fuel (ts ++ rest) = .ok (args, rest)
  | .none ha hb, hfuel => by
    obtain ⟨fuel, rfl⟩ : ∃ n, fuel = n + 1 := ⟨fuel - 1, by simp at hfuel; omega⟩
    exact run_arguments_none ha hb
  | .some ha h hb, hfuel => by
    rw [List.length_cons, List.length_append, List.length_singleton] at hfuel
    obtain ⟨fuel, rfl⟩ : ∃ n, fuel = n + 1 := ⟨fuel - 1, by omega⟩
    rw [List.cons_append, List.append_assoc, List.singleton_append]
    exact run_arguments_some ha h (run_items fuel rest h hb (by omega))

/-- Arguments are read one after the other. -/
theorem run_items (fuel : Nat) (rest : List Token) {ts : List Token} {args : List Template}
    {b : Token} : Items ts args → b.kind = .rightParen → 4 * ts.length + 1 < fuel →
      moreArguments fuel (ts ++ b :: rest) = .ok (args, rest)
  | .last h, hb, hfuel => by
    obtain ⟨fuel, rfl⟩ : ∃ n, fuel = n + 2 := ⟨fuel - 2, by omega⟩
    have hend := ends_cons hb (by decide) (by decide) rest
    have he := run_expr_selectors fuel _ h (by omega) hend.leftParen
      fun _ _ => hend.not_selectsName
    exact run_items_last hb (run_expr_of_selectors h.length_pos (by omega) hend he)
  | @Items.more _ us _ _ _ h hc hrest, hb, hfuel => by
    rw [List.length_append, List.length_cons] at hfuel
    obtain ⟨fuel, rfl⟩ : ∃ n, fuel = n + 2 := ⟨fuel - 2, by omega⟩
    have hend := ends_cons hc (by decide) (by decide) (us ++ b :: rest)
    have he := run_expr_selectors fuel _ h (by omega) hend.leftParen
      fun _ _ => hend.not_selectsName
    rw [List.append_assoc, List.cons_append]
    exact run_items_more hc (run_expr_of_selectors h.length_pos (by omega) hend he)
      (run_items (fuel + 1) rest hrest hb (by omega))

end

/-! ## Templates -/

/-- What follows the whole expression. -/
theorem of_run_template (hspelled : ∀ x ∈ tokens, x.Spelled)
    (h : template tokens = .ok (e, rest)) : Sentence tokens e := by
  obtain ⟨all, same, hget, hrun⟩ := of_run_bind h
  obtain ⟨rfl, rfl⟩ := Prod.mk.inj (Except.ok.inj hget)
  split_ifs at hrun with hempty
  · cases hrun
  · dsimp only at hrun
    obtain ⟨e', more, hexpr, hended⟩ := of_run_bind hrun
    obtain ⟨ts, rfl, he⟩ := (sound _).expr _ _ _ hspelled hexpr
    obtain ⟨taken, left, haccept, hleft⟩ := of_run_bind hended
    obtain ⟨all, same, hall, hdone⟩ := of_run_bind hleft
    obtain ⟨rfl, rfl⟩ := Prod.mk.inj (Except.ok.inj hall)
    obtain _ | ⟨extra, left⟩ := left
    · obtain ⟨rfl, rfl⟩ := Prod.mk.inj (Except.ok.inj hdone)
      obtain ⟨-, x, hx, rfl⟩ | ⟨-, rfl, -⟩ := of_run_accept haccept
      · exact .ended he hx
      · exact .plain (by simpa using he)
    · cases hdone

theorem run_template_of_expression {last : List Token} {taken : Bool} (h : Expression ts e)
    (hend : Ends last) (hlast : accept .semicolon last = .ok (taken, [])) :
    template (ts ++ last) = .ok (e, []) := by
  have hpos := h.length_pos
  have hfuel : 4 * ts.length ≤ 4 * (ts ++ last).length + 4 := by
    rw [List.length_append]
    omega
  have hrun := run_expr_of_selectors hpos hfuel hend
    (run_expr_selectors _ last h hfuel hend.leftParen fun _ _ => hend.not_selectsName)
  rw [template]
  refine (run_bind (x := get) rfl).trans ?_
  rw [if_neg (by simp [List.length_pos_iff.mp hpos])]
  dsimp only
  exact (run_bind hrun).trans ((run_bind hlast).trans (run_bind (x := get) rfl))

theorem run_template (h : Sentence tokens e) : template tokens = .ok (e, []) := by
  cases h with
  | plain h =>
    have hrun : template (tokens ++ []) = .ok (e, []) := run_template_of_expression h ⟨rfl, rfl⟩ rfl
    rwa [List.append_nil] at hrun
  | ended h hx =>
    exact run_template_of_expression h (ends_cons hx (by decide) (by decide) []) (run_accept hx)

end Parser

theorem ofTokens_eq_ok {tokens : List Token} (htokens : ∀ x ∈ tokens, x.Spelled) {t : Template} :
    ofTokens tokens = .ok t ↔ Sentence tokens t := by
  rw [ofTokens, Checked.map_eq_ok]
  constructor
  · rintro ⟨⟨e, rest⟩, hrun, rfl⟩
    exact Parser.of_run_template htokens hrun
  · exact fun h => ⟨(t, []), Parser.run_template h, rfl⟩

/-- No two derivations of the same tokens give different trees. -/
theorem Sentence.unique {tokens : List Token} {t u : Template} (ht : Sentence tokens t)
    (hu : Sentence tokens u) : t = u := by
  have hsame := (Parser.run_template ht).symm.trans (Parser.run_template hu)
  exact congrArg Prod.fst (Except.ok.inj hsame)

theorem exists_error {tokens : List Token} (htokens : ∀ x ∈ tokens, x.Spelled)
    (hnone : ∀ t, ¬ Sentence tokens t) : ∃ e, ofTokens tokens = .error e := by
  cases h : ofTokens tokens with
  | error e => exact ⟨e, rfl⟩
  | ok t => exact absurd ((ofTokens_eq_ok htokens).mp h) (hnone t)

theorem parse_of_scan {source : String} {tokens : List Token}
    (h : Token.scan source = .ok tokens) :
    parse source = (ofTokens tokens).mapError (.template source) := by
  rw [parse, h]
  rfl

theorem parse_eq_ok {source : String} {t : Template} : parse source = .ok t ↔
    ∃ tokens, Token.scan source = .ok tokens ∧ Sentence tokens t := by
  rw [parse, Checked.mapError_eq_ok, Checked.bind_eq_ok]
  refine exists_congr fun tokens => and_congr_right fun hscan => ?_
  exact ofTokens_eq_ok (Token.scan_eq_ok.mp hscan).spelled

/-- **The parser accepts exactly the grammar.** All tokens that a text is cut into are spelled. -/
theorem parser_exact :
    (∀ tokens : List Token, (∀ x ∈ tokens, x.Spelled) →
      (∀ t, ofTokens tokens = .ok t ↔ Sentence tokens t) ∧
      (∀ t u, Sentence tokens t → Sentence tokens u → t = u) ∧
      ((∀ t, ¬ Sentence tokens t) → ∃ e, ofTokens tokens = .error e)) ∧
    ∀ source tokens, Token.scan source = .ok tokens →
      (∀ x ∈ tokens, x.Spelled) ∧
      parse source = (ofTokens tokens).mapError (.template source) := by
  refine ⟨fun tokens htokens => ⟨fun t => ofTokens_eq_ok htokens, fun t u => Sentence.unique,
    exists_error htokens⟩, fun source tokens hscan => ⟨?_, parse_of_scan hscan⟩⟩
  exact (Token.scan_eq_ok.mp hscan).spelled

theorem parser_exact_call :
    Token.scan "a.b($1);" = .ok [⟨.identifier, "a", 0⟩, ⟨.dot, ".", 1⟩, ⟨.identifier, "b", 2⟩,
      ⟨.leftParen, "(", 3⟩, ⟨.param, "$1", 4⟩, ⟨.rightParen, ")", 6⟩, ⟨.semicolon, ";", 7⟩] ∧
    parse "a.b($1);" = .ok (.call (some (.path ["a"])) "b" [.param 1]) := by
  have hscan : Token.scan "a.b($1);" = .ok [⟨.identifier, "a", 0⟩, ⟨.dot, ".", 1⟩,
      ⟨.identifier, "b", 2⟩, ⟨.leftParen, "(", 3⟩, ⟨.param, "$1", 4⟩, ⟨.rightParen, ")", 6⟩,
      ⟨.semicolon, ";", 7⟩] := by decide
  obtain ⟨hspelled, hparse⟩ := parser_exact.2 _ _ hscan
  have hnames : DottedName [⟨.identifier, "a", 0⟩, ⟨.dot, ".", 1⟩, ⟨.identifier, "b", 2⟩]
      (["a"] ++ ["b"]) := .dot (.name rfl) rfl rfl
  have hargs : Arguments [⟨.leftParen, "(", 3⟩, ⟨.param, "$1", 4⟩, ⟨.rightParen, ")", 6⟩]
      [.param 1] := .some rfl (.last (.primary (.literal (.param rfl rfl (.digit (by decide))
        (by decide) (by decide))))) rfl
  refine ⟨hscan, hparse.trans ?_⟩
  rw [((parser_exact.1 _ hspelled).1 _).mpr (.ended (.primary (.call hnames hargs)) rfl)]
  rfl

end Template

end ClassSynth
