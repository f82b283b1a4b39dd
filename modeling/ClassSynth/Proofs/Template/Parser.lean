import ClassSynth.Proofs.Checked
import ClassSynth.Proofs.Template.Grammar

/-!
# What the parser reads

Every function of the parser takes a prefix of the tokens. The prefix has the form that the grammar
gives to what is read, and the functions on fixed tokens are rewritten to what they return.

* `Template.Parser.sound`: an expression that is read is one of the grammar.
-/

namespace ClassSynth

/-! ## Values of tokens -/

namespace Template.Parser

theorem digitsValue_of_numeral {digits : List Char} {n : Nat} (h : Numeral digits n) :
    digitsValue digits = n := by
  induction h with
  | digit hd => simpa [digitsValue] using Nat.toNat_digitChar_sub_48_of_lt_ten hd
  | @more digits n d _ hd ih =>
    have hlast : d.digitChar.toNat - '0'.toNat = d := Nat.toNat_digitChar_sub_48_of_lt_ten hd
    unfold digitsValue at ih ⊢
    rw [List.foldl_append, ih, List.foldl_cons, List.foldl_nil, hlast, Nat.mul_comm]

theorem integerValue_of_numeral {text : String} {digits : List Char} {n : Nat}
    (htext : text.toList = digits) (h : Numeral digits n) : integerValue text = n := by
  have hfirst : ∀ rest, digits ≠ '-' :: rest := by
    rintro rest rfl
    exact absurd (h.isDigit '-' List.mem_cons_self) (by decide)
  rw [integerValue, htext]
  split
  · next rest => exact absurd rfl (hfirst rest)
  · rw [digitsValue_of_numeral h]

theorem integerValue_of_negative {text : String} {digits : List Char} {n : Nat}
    (htext : text.toList = '-' :: digits) (h : Numeral digits n) : integerValue text = -n := by
  rw [integerValue, htext]
  exact congrArg (fun n : Nat => -(n : Int)) (digitsValue_of_numeral h)

theorem escaped_eq (c : Char) :
    (if c == 'n' then '\n' else if c == 't' then '\t' else if c == 'r' then '\r'
      else if c == '0' then '\x00' else c) = escaped c := by
  simp only [beq_iff_eq]
  split_ifs with hn ht hr h0
  · rw [hn]; rfl
  · rw [ht]; rfl
  · rw [hr]; rfl
  · rw [h0]; rfl
  · rw [escaped.eq_5 c hn ht hr h0]

theorem unescape_of_quotes {raw text : List Char} (h : Quotes raw text) : unescape raw = text := by
  induction h with
  | nil => rfl
  | plain _ hescape _ ih => rw [unescape.eq_3 _ _ fun d rest hd _ => hescape hd, ih]
  | escape _ _ ih => rw [unescape, ih, escaped_eq]

theorem stringValue_of_quotes {text : String} {raw value : List Char}
    (htext : text.toList = '"' :: (raw ++ ['"'])) (h : Quotes raw value) :
    stringValue text = String.ofList value := by
  rw [stringValue, htext, List.drop_one, List.tail_cons, List.dropLast_concat, unescape_of_quotes h]

/-! ## Runs -/

section Runs

variable {α β : Type} {x : Parser α} {f : α → Parser β} {tokens rest : List Token} {a : α} {b : β}

theorem run_bind (h : x tokens = .ok (a, rest)) : (x >>= f) tokens = f a rest := by
  change (x tokens >>= fun r => f r.1 r.2) = _
  rw [h]
  rfl

theorem of_run_bind (h : (x >>= f) tokens = .ok (b, rest)) :
    ∃ a more, x tokens = .ok (a, more) ∧ f a more = .ok (b, rest) := by
  obtain ⟨⟨a, more⟩, hx, hf⟩ := Checked.bind_eq_ok.mp h
  exact ⟨a, more, hx, hf⟩

end Runs

/-- Is the first token of this kind? -/
def startsWith (kind : TokenKind) (tokens : List Token) : Bool :=
  tokens.head?.any (·.kind = kind)

variable {kind : TokenKind} {what : String} {tokens rest : List Token} {t : Token} {text : String}

theorem run_nextIs (kind : TokenKind) (tokens : List Token) :
    nextIs kind tokens = .ok (startsWith kind tokens, tokens) := rfl

theorem run_accept (h : t.kind = kind) : accept kind (t :: rest) = .ok (true, rest) := by
  rw [accept, if_pos h]

theorem run_accept_of_not (h : startsWith kind tokens = false) :
    accept kind tokens = .ok (false, tokens) := by
  cases tokens with
  | nil => rfl
  | cons t rest => rw [accept, if_neg (by simpa [startsWith] using h)]

theorem of_run_accept {taken : Bool} (h : accept kind tokens = .ok (taken, rest)) :
    (taken = true ∧ ∃ t, t.kind = kind ∧ tokens = t :: rest) ∨
      (taken = false ∧ rest = tokens ∧ startsWith kind tokens = false) := by
  cases tokens with
  | nil =>
    obtain ⟨rfl, rfl⟩ := Prod.mk.inj (Except.ok.inj h)
    exact .inr ⟨rfl, rfl, rfl⟩
  | cons t more =>
    dsimp only [accept] at h
    split_ifs at h with hkind
    · obtain ⟨rfl, rfl⟩ := Prod.mk.inj (Except.ok.inj h)
      exact .inl ⟨rfl, t, hkind, rfl⟩
    · obtain ⟨rfl, rfl⟩ := Prod.mk.inj (Except.ok.inj h)
      exact .inr ⟨rfl, rfl, by simpa [startsWith] using hkind⟩

theorem run_expect (what : String) (h : t.kind = kind) :
    expect kind what (t :: rest) = .ok (t.text, rest) := by
  refine (run_bind (x := advance) rfl).trans ?_
  rw [if_pos h]
  rfl

theorem of_run_expect (h : expect kind what tokens = .ok (text, rest)) :
    ∃ t, t.kind = kind ∧ tokens = t :: rest ∧ text = t.text := by
  cases tokens with
  | nil => cases h
  | cons t more =>
    obtain ⟨t', more', hadvance, h⟩ := of_run_bind h
    obtain ⟨rfl, rfl⟩ := Prod.mk.inj (Except.ok.inj hadvance)
    split_ifs at h with hkind
    · obtain ⟨rfl, rfl⟩ := Prod.mk.inj (Except.ok.inj h)
      exact ⟨t, hkind, rfl, rfl⟩
    · cases h

/-! ## Names -/

/-- The tokens start with what selects a member. -/
def SelectsName (tokens : List Token) : Prop :=
  ∃ d x rest, tokens = d :: x :: rest ∧ d.kind = .dot ∧ x.kind = .identifier

theorem moreParts_of_selectsName {done : List String} {d x : Token} (hd : d.kind = .dot)
    (hx : x.kind = .identifier) :
    moreParts done (d :: x :: rest) = moreParts (x.text :: done) rest := by
  rw [moreParts, if_pos ⟨hd, hx⟩]

theorem moreParts_of_not {done : List String} (h : ¬ SelectsName tokens) :
    moreParts done tokens = (done.reverse, tokens) := by
  obtain _ | ⟨d, _ | ⟨x, rest⟩⟩ := tokens
  · rfl
  · rfl
  · rw [moreParts, if_neg fun hkinds => h ⟨d, x, rest, rfl, hkinds⟩]

theorem not_selectsName_of {d x : Token} (h : ¬ (d.kind = .dot ∧ x.kind = .identifier)) :
    ¬ SelectsName (d :: x :: rest) := by
  rintro ⟨d', x', more, heq, hkinds⟩
  obtain ⟨rfl, hrest⟩ := List.cons.inj heq
  obtain ⟨rfl, -⟩ := List.cons.inj hrest
  exact h hkinds

/-- Parts are read as long as the name goes on. -/
theorem of_moreParts {done parts : List String} {ts : List Token} (h : DottedName ts done.reverse)
    (hrun : moreParts done tokens = (parts, rest)) :
    ∃ us, tokens = us ++ rest ∧ DottedName (ts ++ us) parts ∧ ¬ SelectsName rest := by
  fun_induction moreParts done tokens generalizing ts with
  | case1 done d x more hkinds ih =>
    have hlonger : DottedName (ts ++ [d, x]) (x.text :: done).reverse := by
      rw [List.reverse_cons]
      exact h.dot hkinds.1 hkinds.2
    obtain ⟨us, rfl, hname, hrest⟩ := ih hlonger hrun
    exact ⟨d :: x :: us, rfl, by simpa using hname, hrest⟩
  | case2 done d x more hkinds =>
    obtain ⟨rfl, rfl⟩ := Prod.mk.inj hrun
    exact ⟨[], rfl, by simpa using h, not_selectsName_of hkinds⟩
  | case3 done tokens hshort =>
    obtain ⟨rfl, rfl⟩ := Prod.mk.inj hrun
    refine ⟨[], rfl, by simpa using h, ?_⟩
    rintro ⟨d, x, more, rfl, -⟩
    exact hshort d x more rfl

theorem of_run_dotted {parts : List String} (h : dotted tokens = .ok (parts, rest)) :
    ∃ ts, tokens = ts ++ rest ∧ DottedName ts parts ∧ ¬ SelectsName rest := by
  obtain ⟨first, more, hfirst, h⟩ := of_run_bind h
  obtain ⟨t, hkind, rfl, rfl⟩ := of_run_expect hfirst
  obtain ⟨us, rfl, hname, hrest⟩ := of_moreParts (.name hkind) (Except.ok.inj h)
  exact ⟨t :: us, rfl, hname, hrest⟩

/-- A dotted name is read part by part. -/
theorem exists_moreParts {ts : List Token} {parts : List String} (h : DottedName ts parts) :
    ∃ t us, ts = t :: us ∧ t.kind = .identifier ∧
      ∀ rest, moreParts [t.text] (us ++ rest) = moreParts parts.reverse rest := by
  induction h with
  | @name x hx => exact ⟨x, [], rfl, hx, fun _ => rfl⟩
  | @dot ts parts d x _ hd hx ih =>
    obtain ⟨t, us, rfl, ht, hmore⟩ := ih
    refine ⟨t, us ++ [d, x], rfl, ht, fun rest => ?_⟩
    rw [List.append_assoc, List.cons_append, List.cons_append, List.nil_append, hmore,
      moreParts_of_selectsName hd hx, List.reverse_append]
    rfl

theorem run_dotted {ts : List Token} {parts : List String} (h : DottedName ts parts)
    (hrest : ¬ SelectsName rest) : dotted (ts ++ rest) = .ok (parts, rest) := by
  obtain ⟨t, us, rfl, ht, hmore⟩ := exists_moreParts h
  refine (run_bind (run_expect "a name" ht)).trans ?_
  change Except.ok (moreParts [t.text] (us ++ rest)) = _
  rw [hmore, moreParts_of_not hrest, List.reverse_reverse]

/-! ## Literals -/

theorem run_param {digits : List Char} {n : Nat} (htext : text.toList = '$' :: digits)
    (h : Numeral digits n) : param text =
      if 65535 < n then fail (.badParameter text)
      else if n = 0 then pure .this else pure (.param n) := by
  rw [param, htext, List.drop_one, List.tail_cons, digitsValue_of_numeral h]

theorem of_run_param {e : Template} (hkind : t.kind = .param)
    (ht : t.Spelled) (h : param t.text tokens = .ok (e, rest)) : Literal t e ∧ rest = tokens := by
  rw [Token.Spelled, hkind] at ht
  obtain ⟨digits, n, htext, hdigits⟩ := ht
  rw [run_param htext hdigits] at h
  split_ifs at h with hmax hzero
  · cases h
  · obtain ⟨rfl, rfl⟩ := Prod.mk.inj (Except.ok.inj h)
    exact ⟨.receiver hkind htext (hzero ▸ hdigits), rfl⟩
  · obtain ⟨rfl, rfl⟩ := Prod.mk.inj (Except.ok.inj h)
    exact ⟨.param hkind htext hdigits (by omega) (by omega), rfl⟩

theorem of_run_integer {e : Template} (hkind : t.kind = .integer) (ht : t.Spelled)
    (h : integer t.text tokens = .ok (e, rest)) : Literal t e ∧ rest = tokens := by
  rw [Token.Spelled, hkind] at ht
  obtain ⟨digits, n, htext | htext, hdigits⟩ := ht
  · rw [integer, integerValue_of_numeral htext hdigits] at h
    split_ifs at h with hrange
    · cases h
    · obtain ⟨rfl, rfl⟩ := Prod.mk.inj (Except.ok.inj h)
      exact ⟨.integer hkind htext hdigits (by omega), rfl⟩
  · rw [integer, integerValue_of_negative htext hdigits] at h
    split_ifs at h with hrange
    · cases h
    · obtain ⟨rfl, rfl⟩ := Prod.mk.inj (Except.ok.inj h)
      exact ⟨.negative hkind htext hdigits (by omega), rfl⟩

theorem literal_of_string (hkind : t.kind = .string) (ht : t.Spelled) :
    Literal t (.str (stringValue t.text)) := by
  rw [Token.Spelled, hkind] at ht
  obtain ⟨raw, text, htext, hraw⟩ := ht
  rw [stringValue_of_quotes htext hraw]
  exact .string hkind htext hraw

/-- A literal is an expression by itself. -/
theorem run_literal {e : Template} (h : Literal t e) (fuel : Nat) (rest : List Token) :
    primary (fuel + 1) (t :: rest) = .ok (e, rest) := by
  unfold primary
  refine (run_bind (x := get) rfl).trans ((run_bind (x := advance) rfl).trans ?_)
  cases h with
  | receiver h htext hdigits =>
    simp only [h]
    rw [run_param htext hdigits]
    rfl
  | param h htext hdigits hpos hmax =>
    simp only [h]
    rw [run_param htext hdigits, if_neg (by omega), if_neg (by omega)]
    rfl
  | integer h htext hdigits hmax =>
    simp only [h]
    rw [integer, integerValue_of_numeral htext hdigits, if_neg (by omega)]
    rfl
  | negative h htext hdigits hmax =>
    simp only [h]
    rw [integer, integerValue_of_negative htext hdigits, if_neg (by omega)]
    rfl
  | string h htext hraw =>
    simp only [h]
    rw [stringValue_of_quotes htext hraw]
    rfl
  | _ h => simp only [h]; rfl

/-! ## Expressions that are read -/

/-- What is read from the front of the tokens is an expression, and so on. -/
structure Sound (fuel : Nat) : Prop where
  expr : ∀ tokens e rest, (∀ t ∈ tokens, t.Spelled) → expr fuel tokens = .ok (e, rest) →
    ∃ ts, tokens = ts ++ rest ∧ Expression ts e
  selectors : ∀ ts e tokens e' rest, (∀ t ∈ tokens, t.Spelled) → Expression ts e →
    (∀ parts, DottedName ts parts → ¬ SelectsName tokens) →
    selectors fuel e tokens = .ok (e', rest) → ∃ us, tokens = us ++ rest ∧ Expression (ts ++ us) e'
  primary : ∀ tokens e rest, (∀ t ∈ tokens, t.Spelled) → primary fuel tokens = .ok (e, rest) →
    ∃ ts, tokens = ts ++ rest ∧ Primary ts e ∧ ∀ parts, DottedName ts parts → ¬ SelectsName rest
  arguments : ∀ tokens args rest, (∀ t ∈ tokens, t.Spelled) →
    arguments fuel tokens = .ok (args, rest) → ∃ ts, tokens = ts ++ rest ∧ Arguments ts args
  moreArguments : ∀ tokens args rest, (∀ t ∈ tokens, t.Spelled) →
    moreArguments fuel tokens = .ok (args, rest) →
    ∃ ts b, tokens = ts ++ b :: rest ∧ b.kind = .rightParen ∧ Items ts args

variable {fuel : Nat} {ts us : List Token} {e e' : Template} {parts : List String}

theorem sound_expr (ih : Sound fuel) (hspelled : ∀ t ∈ tokens, t.Spelled)
    (h : expr (fuel + 1) tokens = .ok (e, rest)) : ∃ ts, tokens = ts ++ rest ∧ Expression ts e := by
  obtain ⟨first, more, hprimary, hselectors⟩ := of_run_bind h
  obtain ⟨ts, rfl, hfirst, hmax⟩ := ih.primary _ _ _ hspelled hprimary
  have hmore : ∀ t ∈ more, t.Spelled := fun t ht => hspelled t (List.mem_append_right _ ht)
  obtain ⟨us, rfl, he⟩ := ih.selectors ts first more _ _ hmore (.primary hfirst) hmax hselectors
  exact ⟨ts ++ us, (List.append_assoc _ _ _).symm, he⟩

theorem sound_selectors (ih : Sound fuel) (hspelled : ∀ t ∈ tokens, t.Spelled)
    (he : Expression ts e) (hmax : ∀ parts, DottedName ts parts → ¬ SelectsName tokens)
    (h : selectors (fuel + 1) e tokens = .ok (e', rest)) :
    ∃ us, tokens = us ++ rest ∧ Expression (ts ++ us) e' := by
  rw [selectors] at h
  obtain ⟨taken, more, haccept, hselected⟩ := of_run_bind h
  obtain ⟨rfl, d, hd, rfl⟩ | ⟨rfl, rfl, -⟩ := of_run_accept haccept
  · obtain ⟨name, more', hname, hnamed⟩ := of_run_bind hselected
    obtain ⟨x, hx, rfl, rfl⟩ := of_run_expect hname
    have hplain : ∀ parts, ¬ DottedName ts parts := fun parts hts =>
      hmax parts hts ⟨d, x, more', rfl, hd, hx⟩
    have hmore : ∀ t ∈ more', t.Spelled := fun t ht =>
      hspelled t (List.mem_cons_of_mem _ (List.mem_cons_of_mem _ ht))
    obtain ⟨called, more'', hcalled, hmember⟩ := of_run_bind hnamed
    obtain ⟨rfl, rfl⟩ := Prod.mk.inj (Except.ok.inj hcalled)
    split_ifs at hmember with hparen
    · obtain ⟨args, rest', hargs, hrest⟩ := of_run_bind hmember
      obtain ⟨as, rfl, has⟩ := ih.arguments _ _ _ hmore hargs
      have hcall : Expression (ts ++ d :: x :: as) (.call (some e) x.text args) :=
        .call he hplain hd hx has
      have hlater : ∀ parts, DottedName (ts ++ d :: x :: as) parts → ¬ SelectsName rest' :=
        fun parts hts => absurd hts (by simpa using has.not_dottedName (ts ++ [d, x]))
      obtain ⟨us, rfl, he'⟩ := ih.selectors _ _ _ _ _
        (fun t ht => hmore t (List.mem_append_right _ ht)) hcall hlater hrest
      exact ⟨d :: x :: (as ++ us), by simp, by simpa using he'⟩
    · have hfield : Expression (ts ++ [d, x]) (.field e x.text) := .field he hplain hd hx
      have hlater : ∀ parts, DottedName (ts ++ [d, x]) parts → ¬ SelectsName more' :=
        fun parts hts => (hplain _ hts.of_dot.choose_spec).elim
      obtain ⟨us, rfl, he'⟩ := ih.selectors _ _ _ _ _ hmore hfield hlater hmember
      exact ⟨d :: x :: us, by simp, by simpa using he'⟩
  · obtain ⟨rfl, rfl⟩ := Prod.mk.inj (Except.ok.inj hselected)
    exact ⟨[], rfl, by simpa using he⟩

/-- What is an expression by itself is no plain name. -/
theorem primary_of_literal (h : Literal t e) : Primary [t] e ∧
    ∀ parts, DottedName [t] parts → ¬ SelectsName rest := by
  refine ⟨.literal h, fun parts hname => ?_⟩
  obtain ⟨x, rest, hx, hkind⟩ := hname.exists_name
  obtain ⟨rfl, -⟩ := List.cons.inj hx
  exact absurd hkind h.kind_ne.1

theorem run_callPath (qualifier : List String) (name : String) (args : List Template)
    (tokens : List Token) : callPath (qualifier ++ [name]) args tokens =
      .ok (.call (qualifierOf qualifier) name args, tokens) := by
  simp only [callPath, List.getLast?_concat, List.dropLast_concat]
  cases qualifier <;> rfl

theorem of_run_callPath {args : List Template} (h : callPath parts args tokens = .ok (e, rest)) :
    rest = tokens ∧ ∃ qualifier name, parts = qualifier ++ [name] ∧
      e = .call (qualifierOf qualifier) name args := by
  obtain rfl | ⟨qualifier, name, rfl⟩ := List.eq_nil_or_concat parts
  · cases h
  · rw [List.concat_eq_append, run_callPath] at h
    obtain ⟨rfl, rfl⟩ := Prod.mk.inj (Except.ok.inj h)
    exact ⟨rfl, qualifier, name, List.concat_eq_append, rfl⟩

theorem sound_primary (ih : Sound fuel) (hspelled : ∀ t ∈ tokens, t.Spelled)
    (h : primary (fuel + 1) tokens = .ok (e, rest)) :
    ∃ ts, tokens = ts ++ rest ∧ Primary ts e ∧
      ∀ parts, DottedName ts parts → ¬ SelectsName rest := by
  rw [primary] at h
  obtain ⟨all, same, hget, hrun⟩ := of_run_bind h
  obtain ⟨rfl, rfl⟩ := Prod.mk.inj (Except.ok.inj hget)
  obtain _ | ⟨t, more⟩ := tokens
  · cases hrun
  obtain ⟨t', more', hadvance, hread⟩ := of_run_bind hrun
  obtain ⟨rfl, rfl⟩ := Prod.mk.inj (Except.ok.inj hadvance)
  have ht : t.Spelled := hspelled t List.mem_cons_self
  have hmore : ∀ x ∈ more, x.Spelled := fun x hx => hspelled x (List.mem_cons_of_mem _ hx)
  -- A token that is an expression by itself leaves the others.
  have hliteral : Literal t e ∧ rest = more → ∃ ts, t :: more = ts ++ rest ∧ Primary ts e ∧
      ∀ parts, DottedName ts parts → ¬ SelectsName rest := by
    rintro ⟨he, rfl⟩
    exact ⟨[t], rfl, primary_of_literal he⟩
  have hconstant {e' : Template} (h : (pure e' : Parser Template) more = .ok (e, rest))
      (he : Literal t e') : Literal t e ∧ rest = more := by
    obtain ⟨rfl, rfl⟩ := Prod.mk.inj (Except.ok.inj h)
    exact ⟨he, rfl⟩
  cases hkind : t.kind <;> simp only [hkind] at hread
  case placeholder => exact hliteral (hconstant hread (.placeholder hkind))
  case this => exact hliteral (hconstant hread (.this hkind))
  case allParams => exact hliteral (hconstant hread (.allParams hkind))
  case null => exact hliteral (hconstant hread (.null hkind))
  case true => exact hliteral (hconstant hread (.true hkind))
  case false => exact hliteral (hconstant hread (.false hkind))
  case param => exact hliteral (of_run_param hkind ht hread)
  case integer => exact hliteral (of_run_integer hkind ht hread)
  case string => exact hliteral (hconstant hread (literal_of_string hkind ht))
  case leftParen =>
    obtain ⟨inner, more', hinner, hclose⟩ := of_run_bind hread
    obtain ⟨text, more'', hexpect, hdone⟩ := of_run_bind hclose
    obtain ⟨b, hb, rfl, rfl⟩ := of_run_expect hexpect
    obtain ⟨rfl, rfl⟩ := Prod.mk.inj (Except.ok.inj hdone)
    obtain ⟨ts, rfl, he⟩ := ih.expr _ _ _ hmore hinner
    refine ⟨t :: (ts ++ [b]), by simp, .parens hkind he hb, fun parts hname => ?_⟩
    exact absurd hname (not_dottedName_of_mem List.mem_cons_self (by rw [hkind]; decide)
      (by rw [hkind]; decide))
  case new =>
    obtain ⟨path, more', hpath, hcalled⟩ := of_run_bind hread
    obtain ⟨names, rfl, hnames, -⟩ := of_run_dotted hpath
    obtain ⟨args, more'', hargs, hdone⟩ := of_run_bind hcalled
    obtain ⟨rfl, rfl⟩ := Prod.mk.inj (Except.ok.inj hdone)
    obtain ⟨as, rfl, has⟩ := ih.arguments _ _ _
      (fun x hx => hmore x (List.mem_append_right _ hx)) hargs
    refine ⟨t :: (names ++ as), by simp, .new hkind hnames has, fun parts hname => ?_⟩
    exact absurd hname (has.not_dottedName (t :: names))
  case identifier =>
    obtain ⟨_, all, hset, hread⟩ := of_run_bind hread
    obtain ⟨-, rfl⟩ := Prod.mk.inj (Except.ok.inj hset)
    obtain ⟨path, more', hpath, hnext⟩ := of_run_bind hread
    obtain ⟨names, hall, hnames, hmax⟩ := of_run_dotted hpath
    obtain ⟨called, same, hcalled, hnext⟩ := of_run_bind hnext
    obtain ⟨rfl, rfl⟩ := Prod.mk.inj (Except.ok.inj hcalled)
    split_ifs at hnext with hparen
    · obtain ⟨args, more'', hargs, hcall⟩ := of_run_bind hnext
      obtain ⟨rfl, qualifier, name, rfl, rfl⟩ := of_run_callPath hcall
      obtain ⟨as, rfl, has⟩ := ih.arguments _ _ _
        (fun x hx => hspelled x (hall ▸ List.mem_append_right _ hx)) hargs
      refine ⟨names ++ as, by simpa using hall, .call hnames has, fun parts hname => ?_⟩
      exact absurd hname (has.not_dottedName names)
    · obtain ⟨rfl, rfl⟩ := Prod.mk.inj (Except.ok.inj hnext)
      exact ⟨names, hall, .path hnames, fun _ _ => hmax⟩
  all_goals cases hread

theorem sound_arguments (ih : Sound fuel) {args : List Template}
    (hspelled : ∀ t ∈ tokens, t.Spelled) (h : arguments (fuel + 1) tokens = .ok (args, rest)) :
    ∃ ts, tokens = ts ++ rest ∧ Arguments ts args := by
  rw [arguments] at h
  obtain ⟨text, more, hopen, hopened⟩ := of_run_bind h
  obtain ⟨a, ha, rfl, rfl⟩ := of_run_expect hopen
  obtain ⟨taken, more', hclose, hinside⟩ := of_run_bind hopened
  obtain ⟨rfl, b, hb, rfl⟩ | ⟨rfl, rfl, -⟩ := of_run_accept hclose
  · obtain ⟨rfl, rfl⟩ := Prod.mk.inj (Except.ok.inj hinside)
    exact ⟨[a, b], rfl, .none ha hb⟩
  · obtain ⟨ts, b, rfl, hb, hitems⟩ := ih.moreArguments _ _ _
      (fun t ht => hspelled t (List.mem_cons_of_mem _ ht)) hinside
    exact ⟨a :: (ts ++ [b]), by simp, .some ha hitems hb⟩

theorem sound_moreArguments (ih : Sound fuel) {args : List Template}
    (hspelled : ∀ t ∈ tokens, t.Spelled) (h : moreArguments (fuel + 1) tokens = .ok (args, rest)) :
    ∃ ts b, tokens = ts ++ b :: rest ∧ b.kind = .rightParen ∧ Items ts args := by
  rw [moreArguments] at h
  obtain ⟨e, more, hexpr, hnext⟩ := of_run_bind h
  obtain ⟨ts, rfl, he⟩ := ih.expr _ _ _ hspelled hexpr
  obtain ⟨taken, more', hclose, hinside⟩ := of_run_bind hnext
  obtain ⟨rfl, b, hb, rfl⟩ | ⟨rfl, rfl, -⟩ := of_run_accept hclose
  · obtain ⟨rfl, rfl⟩ := Prod.mk.inj (Except.ok.inj hinside)
    exact ⟨ts, b, rfl, hb, .last he⟩
  · obtain ⟨text, more, hcomma, hitems⟩ := of_run_bind hinside
    obtain ⟨c, hc, rfl, rfl⟩ := of_run_expect hcomma
    obtain ⟨others, more', hothers, hdone⟩ := of_run_bind hitems
    obtain ⟨rfl, rfl⟩ := Prod.mk.inj (Except.ok.inj hdone)
    obtain ⟨us, b, rfl, hb, hus⟩ := ih.moreArguments _ _ _
      (fun t ht => hspelled t (List.mem_append_right _ (List.mem_cons_of_mem _ ht))) hothers
    exact ⟨ts ++ c :: us, b, by simp, hb, .more he hc hus⟩

/-- **What is read from the front of the tokens has the form that the grammar gives it.** -/
theorem sound (fuel : Nat) : Sound fuel := by
  induction fuel with
  | zero => exact ⟨nofun, nofun, nofun, nofun, nofun⟩
  | succ fuel ih =>
    exact {
      expr := fun _ _ _ => sound_expr ih
      selectors := fun _ _ _ _ _ => sound_selectors ih
      primary := fun _ _ _ => sound_primary ih
      arguments := fun _ _ _ => sound_arguments ih
      moreArguments := fun _ _ _ => sound_moreArguments ih }

end Template.Parser

end ClassSynth
