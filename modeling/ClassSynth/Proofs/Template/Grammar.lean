import ClassSynth.Template.Parser
import Mathlib.Tactic.Common

/-!
# The grammar of templates

What a sequence of tokens has to look like to be a template, and the tree that it stands for,
without a word about how templates are read. A dotted name is as long as it can be: what selects a
member never follows a plain name.

* `Token.Spelled`: the text of a token is one that its kind can have.
* `Template.Sentence`: the tokens form the template.
-/

namespace ClassSynth

/-! ## Texts of tokens -/

/-- Decimal digits and the number that they stand for. -/
inductive Numeral : List Char → Nat → Prop
  | digit {d : Nat} (hd : d < 10) : Numeral [d.digitChar] d
  | more {digits : List Char} {n d : Nat} (h : Numeral digits n) (hd : d < 10) :
    Numeral (digits ++ [d.digitChar]) (10 * n + d)

theorem Numeral.isDigit {digits : List Char} {n : Nat} (h : Numeral digits n) :
    ∀ c ∈ digits, c.isDigit = true := by
  induction h with
  | digit hd => simpa [Nat.isDigit_digitChar] using hd
  | more _ hd ih =>
    intro c hc
    obtain hc | hc := List.mem_append.mp hc
    · exact ih c hc
    · rw [List.mem_singleton.mp hc, Nat.isDigit_digitChar]
      exact decide_eq_true hd

theorem Numeral.ne_nil {digits : List Char} {n : Nat} (h : Numeral digits n) : digits ≠ [] := by
  cases h with
  | digit => exact List.cons_ne_nil _ _
  | more => simp

/-- What a character stands for behind a backslash. -/
def escaped (c : Char) : Char :=
  match c with
  | 'n' => '\n'
  | 't' => '\t'
  | 'r' => '\r'
  | '0' => '\x00'
  | c => c

/-- The characters between the quotes of a string literal, and those that they stand for. -/
inductive Quotes : List Char → List Char → Prop
  | nil : Quotes [] []
  | plain {c : Char} {raw text : List Char} (hquote : c ≠ '"') (hescape : c ≠ '\\')
    (h : Quotes raw text) : Quotes (c :: raw) (c :: text)
  | escape {c : Char} {raw text : List Char} (hline : c ≠ '\n') (h : Quotes raw text) :
    Quotes ('\\' :: c :: raw) (escaped c :: text)

/-- A word that is no keyword. -/
def IsName (text : List Char) : Prop :=
  ∃ c rest, text = c :: rest ∧ Token.isNameStart c = true ∧
    (∀ d ∈ rest, Token.isNamePart d = true) ∧ Token.wordKind text = .identifier

/-- The text of a token is one that tokens of its kind have. -/
def Token.Spelled (x : Token) : Prop :=
  match x.kind with
  | .param => ∃ digits n, x.text.toList = '$' :: digits ∧ Numeral digits n
  | .integer =>
    ∃ digits n, (x.text.toList = digits ∨ x.text.toList = '-' :: digits) ∧ Numeral digits n
  | .string => ∃ raw text, x.text.toList = '"' :: (raw ++ ['"']) ∧ Quotes raw text
  | .identifier => IsName x.text.toList
  | _ => True

namespace Template

/-! ## Rules -/

/-- A token that is an expression by itself. -/
inductive Literal (x : Token) : Template → Prop
  | placeholder (h : x.kind = .placeholder) : Literal x .placeholder
  | this (h : x.kind = .this) : Literal x .this
  | allParams (h : x.kind = .allParams) : Literal x .allParams
  | null (h : x.kind = .null) : Literal x .null
  | true (h : x.kind = .true) : Literal x (.bool true)
  | false (h : x.kind = .false) : Literal x (.bool false)
  | receiver {digits : List Char} (h : x.kind = .param) (htext : x.text.toList = '$' :: digits)
    (hdigits : Numeral digits 0) : Literal x .this
  | param {digits : List Char} {n : Nat} (h : x.kind = .param)
    (htext : x.text.toList = '$' :: digits) (hdigits : Numeral digits n) (hpos : 0 < n)
    (hmax : n ≤ 65535) : Literal x (.param n)
  | integer {digits : List Char} {n : Nat} (h : x.kind = .integer) (htext : x.text.toList = digits)
    (hdigits : Numeral digits n) (hmax : n ≤ 2147483647) : Literal x (.int (Int32.ofInt n))
  | negative {digits : List Char} {n : Nat} (h : x.kind = .integer)
    (htext : x.text.toList = '-' :: digits) (hdigits : Numeral digits n) (hmax : n ≤ 2147483648) :
    Literal x (.int (Int32.ofInt (-n)))
  | string {raw text : List Char} (h : x.kind = .string)
    (htext : x.text.toList = '"' :: (raw ++ ['"'])) (hraw : Quotes raw text) :
    Literal x (.str (String.ofList text))

/-- Names with dots between them. -/
inductive DottedName : List Token → List String → Prop
  | name {x : Token} (hx : x.kind = .identifier) : DottedName [x] [x.text]
  | dot {ts : List Token} {parts : List String} {d x : Token} (h : DottedName ts parts)
    (hd : d.kind = .dot) (hx : x.kind = .identifier) :
    DottedName (ts ++ [d, x]) (parts ++ [x.text])

/-- What the parts of a dotted name before the last one denote; none if it has only one. -/
def qualifierOf : List String → Option Template
  | [] => none
  | parts => some (.path parts)

mutual

/-- An expression that selects no member of another one. -/
inductive Primary : List Token → Template → Prop
  | literal {x : Token} {t : Template} (h : Literal x t) : Primary [x] t
  | parens {a b : Token} {ts : List Token} {t : Template} (ha : a.kind = .leftParen)
    (h : Expression ts t) (hb : b.kind = .rightParen) : Primary (a :: (ts ++ [b])) t
  | new {x : Token} {names as : List Token} {parts : List String} {args : List Template}
    (hx : x.kind = .new) (hnames : DottedName names parts) (hargs : Arguments as args) :
    Primary (x :: (names ++ as)) (.new (".".intercalate parts) args)
  | path {names : List Token} {parts : List String} (h : DottedName names parts) :
    Primary names (.path parts)
  | call {names as : List Token} {qualifier : List String} {name : String} {args : List Template}
    (hnames : DottedName names (qualifier ++ [name])) (hargs : Arguments as args) :
    Primary (names ++ as) (.call (qualifierOf qualifier) name args)

/-- A primary with the members that are selected. Behind a plain dotted name, no member is selected:
it would be a part of the name. -/
inductive Expression : List Token → Template → Prop
  | primary {ts : List Token} {t : Template} (h : Primary ts t) : Expression ts t
  | field {ts : List Token} {t : Template} {d x : Token} (h : Expression ts t)
    (hmax : ∀ parts, ¬ DottedName ts parts) (hd : d.kind = .dot) (hx : x.kind = .identifier) :
    Expression (ts ++ [d, x]) (.field t x.text)
  | call {ts as : List Token} {t : Template} {d x : Token} {args : List Template}
    (h : Expression ts t) (hmax : ∀ parts, ¬ DottedName ts parts) (hd : d.kind = .dot)
    (hx : x.kind = .identifier) (hargs : Arguments as args) :
    Expression (ts ++ d :: x :: as) (.call (some t) x.text args)

/-- Expressions in parentheses. -/
inductive Arguments : List Token → List Template → Prop
  | none {a b : Token} (ha : a.kind = .leftParen) (hb : b.kind = .rightParen) : Arguments [a, b] []
  | some {a b : Token} {ts : List Token} {args : List Template} (ha : a.kind = .leftParen)
    (h : Items ts args) (hb : b.kind = .rightParen) : Arguments (a :: (ts ++ [b])) args

/-- One or more expressions with commas between them. -/
inductive Items : List Token → List Template → Prop
  | last {ts : List Token} {t : Template} (h : Expression ts t) : Items ts [t]
  | more {ts us : List Token} {t : Template} {c : Token} {args : List Template}
    (h : Expression ts t) (hc : c.kind = .comma) (hrest : Items us args) :
    Items (ts ++ c :: us) (t :: args)

end

/-- The tokens form the template: one expression, and perhaps a semicolon behind it. -/
inductive Sentence : List Token → Template → Prop
  | plain {ts : List Token} {t : Template} (h : Expression ts t) : Sentence ts t
  | ended {ts : List Token} {t : Template} {x : Token} (h : Expression ts t)
    (hx : x.kind = .semicolon) : Sentence (ts ++ [x]) t

/-! ## Shapes of derivations -/

variable {t : Token} {ts us : List Token} {e : Template} {args : List Template}
  {parts : List String}

theorem Literal.kind_ne (h : Literal t e) : t.kind ≠ .identifier ∧ t.kind ≠ .rightParen := by
  cases h with
  | placeholder h | this h | allParams h | null h | true h | false h | receiver h | param h
  | integer h | negative h | string h => rw [h]; decide

theorem DottedName.kind_of_mem (h : DottedName ts parts) :
    ∀ t ∈ ts, t.kind = .identifier ∨ t.kind = .dot := by
  induction h with
  | name hx => exact fun t ht => .inl (List.mem_singleton.mp ht ▸ hx)
  | dot _ hd hx ih =>
    intro t ht
    obtain ht | ht := List.mem_append.mp ht
    · exact ih t ht
    · obtain rfl | ht := List.mem_cons.mp ht
      · exact .inr hd
      · exact .inl (List.mem_singleton.mp ht ▸ hx)

theorem DottedName.exists_name (h : DottedName ts parts) :
    ∃ x rest, ts = x :: rest ∧ x.kind = .identifier := by
  induction h with
  | name hx => exact ⟨_, _, rfl, hx⟩
  | dot _ _ _ ih =>
    obtain ⟨x, rest, rfl, hx⟩ := ih
    exact ⟨x, _, rfl, hx⟩

/-- Other tokens are no part of a dotted name. -/
theorem not_dottedName_of_mem (ht : t ∈ ts) (hname : t.kind ≠ .identifier) (hdot : t.kind ≠ .dot) :
    ¬ DottedName ts parts :=
  fun h => (h.kind_of_mem t ht).elim hname hdot

/-- Without its last part, a dotted name is a dotted name. -/
theorem DottedName.of_dot {d x : Token} (h : DottedName (ts ++ [d, x]) parts) :
    ∃ parts, DottedName ts parts := by
  generalize hall : ts ++ [d, x] = all at h
  cases h with
  | name => simp [List.append_eq_cons_iff] at hall
  | dot h =>
    obtain ⟨rfl, -⟩ := List.append_inj' hall rfl
    exact ⟨_, h⟩

theorem Arguments.exists_leftParen (h : Arguments ts args) :
    ∃ a rest, ts = a :: rest ∧ a.kind = .leftParen := by
  cases h with
  | none ha => exact ⟨_, _, rfl, ha⟩
  | some ha => exact ⟨_, _, rfl, ha⟩

/-- What ends with arguments is no dotted name. -/
theorem Arguments.not_dottedName (h : Arguments us args) (ts : List Token) :
    ¬ DottedName (ts ++ us) parts := by
  obtain ⟨a, rest, rfl, ha⟩ := h.exists_leftParen
  exact not_dottedName_of_mem (t := a) (by simp) (by rw [ha]; decide) (by rw [ha]; decide)

theorem Primary.exists_first (h : Primary ts e) :
    ∃ x rest, ts = x :: rest ∧ x.kind ≠ .rightParen := by
  cases h with
  | literal h => exact ⟨_, [], rfl, h.kind_ne.2⟩
  | parens ha => exact ⟨_, _, rfl, by rw [ha]; decide⟩
  | new hx => exact ⟨_, _, rfl, by rw [hx]; decide⟩
  | path h =>
    obtain ⟨x, rest, rfl, hx⟩ := h.exists_name
    exact ⟨x, rest, rfl, by rw [hx]; decide⟩
  | call h =>
    obtain ⟨x, rest, rfl, hx⟩ := h.exists_name
    exact ⟨x, _, rfl, by rw [hx]; decide⟩

/-- No expression is empty, and none starts with what closes arguments. -/
theorem Expression.exists_first {ts : List Token} {e : Template} :
    Expression ts e → ∃ x rest, ts = x :: rest ∧ x.kind ≠ .rightParen
  | .primary h => h.exists_first
  | .field h _ _ _ | .call h _ _ _ _ => by
    obtain ⟨x, rest, rfl, hx⟩ := h.exists_first
    exact ⟨x, _, rfl, hx⟩

theorem Expression.length_pos (h : Expression ts e) : 0 < ts.length := by
  obtain ⟨x, rest, rfl, -⟩ := h.exists_first
  exact Nat.succ_pos _

theorem Items.exists_first (h : Items ts args) :
    ∃ x rest, ts = x :: rest ∧ x.kind ≠ .rightParen := by
  cases h with
  | last h => exact h.exists_first
  | more h =>
    obtain ⟨x, rest, rfl, hx⟩ := h.exists_first
    exact ⟨x, _, rfl, hx⟩

end Template

end ClassSynth
