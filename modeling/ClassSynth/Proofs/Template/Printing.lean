import ClassSynth.Proofs.Template.Exactness
import ClassSynth.Proofs.Template.Rendering
import Mathlib

/-!
# Printed templates are read back

The text of a template is cut into tokens that form the same template. These need not be the tokens
that it was read from: parentheses are gone, the receiver is written `this`, numerals have no
leading zeros and string literals other escapes.

Names and literals render single tokens. Behind a path, arguments and members regroup: a call on
what a path denotes is printed like a call of a longer name, which is read as the same call. A
field of a path is printed like a longer path, so there must be none.

Main result: `Template.parse_print`.
-/

namespace ClassSynth.Template

open Token (Renders renders_word renders_digits renders_negative renders_param renders_quotes
  renders_token numeral_toDigits)

/-! ## Nodes -/

mutual

/-- The template and all templates inside it. -/
def nodes (t : Template) : List Template :=
  t :: match t with
    | call target _ args => nodesOption target ++ nodesList args
    | field target _ => target.nodes
    | new _ args => nodesList args
    | _ => []

/-- The templates and all templates inside them. -/
def nodesList : List Template → List Template
  | [] => []
  | t :: rest => t.nodes ++ nodesList rest

def nodesOption : Option Template → List Template
  | none => []
  | some t => t.nodes

end

theorem mem_nodes (t : Template) : t ∈ t.nodes := by
  cases t <;> rw [nodes] <;> first | exact List.mem_cons_self | (intros; contradiction)

/-- A character that a string literal shows as it is or by a short escape. -/
def IsPlain (c : Char) : Prop :=
  (0x20 ≤ c.toNat ∧ c.toNat < 0x7f) ∨ c = '\t' ∨ c = '\n' ∨ c = '\r' ∨ c = '\x00'

/-- A node that is printed as it can be read. -/
def Stable : Template → Prop
  | field (.path _) _ => False
  | str value => ∀ c ∈ value.toList, IsPlain c
  | _ => True

/-! ## Literals -/

theorem quotes_escape {c : Char} (h : IsPlain c) {raw text : List Char} (hraw : Quotes raw text) :
    Quotes (Quoted.escape c ++ raw) (c :: text) := by
  unfold Quoted.escape
  simp only [beq_iff_eq]
  split_ifs with hquote hescape hnewline hreturn htab hzero hplain
  · rw [hquote]
    exact .escape (c := '"') (by decide) hraw
  · rw [hescape]
    exact .escape (c := '\\') (by decide) hraw
  · rw [hnewline]
    exact .escape (c := 'n') (by decide) hraw
  · rw [hreturn]
    exact .escape (c := 'r') (by decide) hraw
  · rw [htab]
    exact .escape (c := 't') (by decide) hraw
  · rw [hzero]
    exact .escape (c := '0') (by decide) hraw
  · exact .plain hquote hescape hraw
  all_goals
    obtain hrange | hother | hother | hother | hother := h
    · simp [hrange] at hplain
    · exact absurd hother htab
    · exact absurd hother hnewline
    · exact absurd hother hreturn
    · exact absurd hother hzero

theorem quotes_flatMap_escape {text : List Char} (h : ∀ c ∈ text, IsPlain c) :
    Quotes (text.flatMap Quoted.escape) text := by
  induction text with
  | nil => exact .nil
  | cons c text ih =>
    rw [List.flatMap_cons]
    exact quotes_escape (h c List.mem_cons_self) (ih fun d hd => h d (List.mem_cons_of_mem _ hd))

theorem sign_append_toString {c : Char} {sign : String} (hsign : sign.toList = [c]) (n : Nat) :
    sign ++ toString n = String.ofList (c :: Nat.toDigits 10 n) := by
  apply String.toList_inj.mp
  rw [String.toList_append, hsign, String.toList_ofList, Nat.toString_eq_repr, Nat.toList_repr]
  rfl

/-- A number is printed as a numeral with its sign. -/
theorem renders_int {i : Int} (hmin : -2147483648 ≤ i) (hmax : i ≤ 2147483647) :
    Renders (toString i) fun us => ∃ x, us = [x] ∧ Literal x (.int (Int32.ofInt i)) := by
  obtain n | n := i
  · have hn : (n : Int) ≤ 2147483647 := hmax
    have htext : toString (Int.ofNat n) = String.ofList (Nat.toDigits 10 n) := rfl
    rw [htext]
    refine (renders_digits (numeral_toDigits n)).mono ?_
    rintro us ⟨x, rfl, hx, htext⟩
    exact ⟨x, rfl, .integer hx htext (numeral_toDigits n) (by omega)⟩
  · have hneg : Int.negSucc n = -((n + 1 : Nat) : Int) := rfl
    have htext : toString (Int.negSucc n) = String.ofList ('-' :: Nat.toDigits 10 (n + 1)) := by
      exact sign_append_toString rfl (n + 1)
    rw [htext, hneg]
    rw [hneg] at hmin
    refine (renders_negative (numeral_toDigits (n + 1))).mono ?_
    rintro us ⟨x, rfl, hx, htext⟩
    exact ⟨x, rfl, .negative hx htext (numeral_toDigits (n + 1)) (by omega)⟩

/-- A literal is printed as one token with the same meaning. -/
theorem renders_literal {x : Token} {t : Template} (h : Literal x t) (hstable : Stable t) :
    Renders t.print fun us => ∃ y, us = [y] ∧ Literal y t := by
  have hword (c : Char) (cs : List Char) {t : Template} (hc : Token.isNameStart c = true)
      (hcs : cs.all Token.isNamePart = true)
      (ht : ∀ y : Token, y.kind = Token.wordKind (c :: cs) → Literal y t) :
      Renders (String.ofList (c :: cs)) fun us => ∃ y, us = [y] ∧ Literal y t :=
    (renders_word hc (List.all_eq_true.mp hcs)).mono fun us ⟨y, hus, hkind, _⟩ => ⟨y, hus, ht y hkind⟩
  cases h with
  | placeholder =>
    refine (renders_token '%' ['s'] (fun _ _ => rfl) (by decide)).mono ?_
    exact fun us ⟨y, hus, hkind, _⟩ => ⟨y, hus, .placeholder hkind⟩
  | allParams =>
    refine (renders_token '$' ['$'] (fun _ _ => rfl) (by decide)).mono ?_
    exact fun us ⟨y, hus, hkind, _⟩ => ⟨y, hus, .allParams hkind⟩
  | this => exact hword 't' "his".toList rfl rfl fun y hy => .this hy
  | receiver => exact hword 't' "his".toList rfl rfl fun y hy => .this hy
  | null => exact hword 'n' "ull".toList rfl rfl fun y hy => .null hy
  | true => exact hword 't' "rue".toList rfl rfl fun y hy => .true hy
  | false => exact hword 'f' "alse".toList rfl rfl fun y hy => .false hy
  | @param digits n _ _ _ hpos hmax =>
    rw [print, sign_append_toString rfl]
    refine (renders_param (numeral_toDigits n)).mono ?_
    rintro us ⟨y, rfl, hkind, htext⟩
    exact ⟨y, rfl, .param hkind htext (numeral_toDigits n) hpos hmax⟩
  | @integer digits n _ _ _ hmax =>
    rw [print, Int32.toInt_ofInt_of_le (by omega) (by omega)]
    exact renders_int (by omega) (by omega)
  | @negative digits n _ _ _ hmax =>
    rw [print, Int32.toInt_ofInt_of_le (by omega) (by omega)]
    exact renders_int (by omega) (by omega)
  | @string raw text =>
    have hplain : ∀ c ∈ text, IsPlain c := by simpa [Stable] using hstable
    have hquotes := quotes_flatMap_escape hplain
    rw [print, quoted, String.toList_ofList]
    refine (renders_quotes hquotes).mono ?_
    exact fun us ⟨y, hus, hkind, htext⟩ => ⟨y, hus, .string hkind htext hquotes⟩

/-! ## Names -/

theorem renders_name {name : String} (h : IsName name.toList) : Renders name fun us =>
    ∃ y : Token, us = [y] ∧ y.kind = .identifier ∧ y.text = name := by
  obtain ⟨c, cs, hname, hc, hcs, hkind⟩ := h
  obtain rfl : name = String.ofList (c :: cs) := by rw [← hname, String.ofList_toList]
  rw [hname] at hkind
  refine (renders_word hc hcs).mono ?_
  rintro us ⟨y, rfl, hy, htext⟩
  exact ⟨y, rfl, hy.trans hkind, by rw [← htext, String.ofList_toList]⟩

/-- A name behind a dot. -/
theorem renders_member {name : String} (h : IsName name.toList) : Renders ("." ++ name) fun us =>
    ∃ d x : Token, us = [d, x] ∧ d.kind = .dot ∧ x.kind = .identifier ∧ x.text = name := by
  refine (Renders.symbol rfl (fun _ => rfl) (by decide) (renders_name h)).mono ?_
  rintro us ⟨d, _, rfl, hd, x, rfl, hx, htext⟩
  exact ⟨d, x, rfl, hd, hx, htext⟩

theorem isName_of_spelled {x : Token} (hx : x.Spelled) (hkind : x.kind = .identifier) :
    IsName x.text.toList := by
  rwa [Token.Spelled, hkind] at hx

theorem DottedName.ne_nil {ts : List Token} {parts : List String} (h : DottedName ts parts) :
    parts ≠ [] := by
  cases h <;> simp

theorem renders_dottedName {ts : List Token} {parts : List String} (h : DottedName ts parts)
    (hspelled : ∀ x ∈ ts, x.Spelled) : Renders (".".intercalate parts) (DottedName · parts) := by
  induction h with
  | @name x hx =>
    rw [String.intercalate_singleton]
    refine (renders_name (isName_of_spelled (hspelled x List.mem_cons_self) hx)).mono ?_
    rintro us ⟨y, rfl, hy, htext⟩
    exact htext ▸ .name hy
  | @dot ts parts d x h hd hx ih =>
    have hname := isName_of_spelled (hspelled x (by simp)) hx
    rw [String.intercalate_append_of_ne_nil h.ne_nil (List.cons_ne_nil _ _),
      String.intercalate_singleton, String.append_assoc]
    refine ((ih fun y hy => hspelled y (List.mem_append_left _ hy)).append (renders_member hname)
      fun _ _ => ?_).mono ?_
    · rw [String.toList_append]
      exact Token.apart_cons rfl
    · rintro us ⟨as, _, rfl, has, d', y, rfl, hd', hy, htext⟩
      exact htext ▸ has.dot hd' hy

/-! ## Expressions -/

/-- The text of arguments. -/
def printArguments (args : List Template) : String :=
  "(" ++ ", ".intercalate (printList args) ++ ")"

theorem print_call (target : Option Template) (name : String) (args : List Template) :
    print (.call target name args) = printTarget target ++ (name ++ printArguments args) := by
  rw [print, printArguments]
  simp only [String.append_assoc]

theorem print_new (className : String) (args : List Template) :
    print (.new className args) = "new" ++ (" " ++ (className ++ printArguments args)) := by
  have hnew : ("new " : String) = "new" ++ " " := rfl
  rw [print, printArguments, hnew]
  simp only [String.append_assoc]

theorem print_field (t : Template) (name : String) :
    print (.field t name) = t.print ++ ("." ++ name) := by
  rw [print, String.append_assoc]

theorem printTarget_qualifierOf (qualifier : List String) (name : String) :
    printTarget (qualifierOf qualifier) ++ name = ".".intercalate (qualifier ++ [name]) := by
  obtain _ | ⟨part, parts⟩ := qualifier
  · rw [qualifierOf, printTarget, List.nil_append, String.intercalate_singleton]
    exact String.empty_append
  · rw [String.intercalate_append_of_ne_nil (List.cons_ne_nil _ _) (List.cons_ne_nil _ _),
      String.intercalate_singleton]
    rfl

theorem apart_printArguments (args : List Template) (rest : List Char) :
    Token.Apart ((printArguments args).toList ++ rest) := by
  rw [printArguments, String.append_assoc, String.toList_append]
  exact Token.apart_cons rfl

/-- What is printed is cut into an expression for the same template. -/
def ReadsBack (t : Template) : Prop :=
  Renders t.print fun us => Expression us t ∧ ∀ parts, t = .path parts → DottedName us parts

/-- A dotted name is no expression for anything but its path. -/
theorem Expression.eq_path {us : List Token} {t : Template} {parts : List String}
    (h : Expression us t) (hname : DottedName us parts) : t = .path parts :=
  (Sentence.plain h).unique (.plain (.primary (.path hname)))

theorem ReadsBack.field {t : Template} {name : String} (h : ReadsBack t)
    (hname : IsName name.toList) (hstable : Stable (.field t name)) :
    ReadsBack (.field t name) := by
  rw [ReadsBack, print_field]
  refine (h.append (renders_member hname) fun _ _ => ?_).mono ?_
  · rw [String.toList_append]
    exact Token.apart_cons rfl
  · rintro us ⟨as, _, rfl, ⟨hexpr, -⟩, d, x, rfl, hd, hx, rfl⟩
    refine ⟨.field hexpr (fun parts hplain => ?_) hd hx, fun _ h => by cases h⟩
    rw [hexpr.eq_path hplain] at hstable
    exact hstable

theorem ReadsBack.call {t : Template} {name : String} {args : List Template} (h : ReadsBack t)
    (hname : IsName name.toList) (hargs : Renders (printArguments args) (Arguments · args)) :
    ReadsBack (.call (some t) name args) := by
  have hprint : print (.call (some t) name args) =
      t.print ++ (("." ++ name) ++ printArguments args) := by
    rw [print_call, printTarget]
    simp only [String.append_assoc]
  rw [ReadsBack, hprint]
  have hmember := (renders_member hname).append hargs fun rest _ => apart_printArguments args rest
  refine (h.append hmember fun _ _ => ?_).mono ?_
  · rw [String.append_assoc, String.toList_append]
    exact Token.apart_cons rfl
  · rintro us ⟨as, _, rfl, ⟨hexpr, hpath⟩, _, bs, rfl, ⟨d, x, rfl, hd, hx, rfl⟩, hbs⟩
    refine ⟨?_, fun _ h => by cases h⟩
    by_cases hplain : ∃ parts, t = .path parts
    · -- The path becomes the front of a longer name, which is called.
      obtain ⟨parts, rfl⟩ := hplain
      have hnames := (hpath parts rfl).dot hd hx
      obtain _ | ⟨part, parts⟩ := parts
      · exact absurd rfl (hpath [] rfl).ne_nil
      · simpa [qualifierOf] using Expression.primary (.call hnames hbs)
    · exact .call hexpr (fun parts hname => hplain ⟨parts, hexpr.eq_path hname⟩) hd hx hbs

theorem readsBack_literal {x : Token} {t : Template} (h : Literal x t) (hstable : Stable t) :
    ReadsBack t := by
  refine (renders_literal h hstable).mono ?_
  rintro us ⟨y, rfl, hy⟩
  refine ⟨.primary (.literal hy), ?_⟩
  rintro parts rfl
  cases hy

theorem readsBack_new {names : List Token} {parts : List String} {args : List Template}
    (hnames : DottedName names parts) (hspelled : ∀ x ∈ names, x.Spelled)
    (hargs : Renders (printArguments args) (Arguments · args)) :
    ReadsBack (.new (".".intercalate parts) args) := by
  have hclass := (renders_dottedName hnames hspelled).append hargs fun rest _ =>
    apart_printArguments args rest
  have hnew : Renders (String.ofList ('n' :: ['e', 'w'])) _ :=
    renders_word rfl (List.all_eq_true.mp rfl)
  rw [ReadsBack, print_new]
  refine (hnew.append hclass.space fun _ _ => ?_).mono ?_
  · rw [String.toList_append]
    exact Token.apart_cons rfl
  · rintro us ⟨_, _, rfl, ⟨x, rfl, hx, -⟩, ns, as, rfl, hns, has⟩
    rw [List.singleton_append]
    exact ⟨.primary (.new hx hns has), fun _ h => by cases h⟩

theorem readsBack_path {names : List Token} {parts : List String} (h : DottedName names parts)
    (hspelled : ∀ x ∈ names, x.Spelled) : ReadsBack (.path parts) := by
  rw [ReadsBack, print]
  refine (renders_dottedName h hspelled).mono fun us hus => ⟨.primary (.path hus), ?_⟩
  rintro _ ⟨⟩
  exact hus

theorem readsBack_callPath {names : List Token} {qualifier : List String} {name : String}
    {args : List Template} (h : DottedName names (qualifier ++ [name]))
    (hspelled : ∀ x ∈ names, x.Spelled)
    (hargs : Renders (printArguments args) (Arguments · args)) :
    ReadsBack (.call (qualifierOf qualifier) name args) := by
  rw [ReadsBack, print_call, ← String.append_assoc, printTarget_qualifierOf]
  refine ((renders_dottedName h hspelled).append hargs fun rest _ =>
    apart_printArguments args rest).mono ?_
  rintro us ⟨ns, as, rfl, hns, has⟩
  exact ⟨.primary (.call hns has), fun _ h => by cases h⟩

theorem Items.ne_nil {ts : List Token} {args : List Template} (h : Items ts args) : args ≠ [] := by
  cases h <;> exact List.cons_ne_nil _ _

section

variable {ts us : List Token} {t : Template} {args : List Template}

/-- The parentheses around arguments. -/
theorem renders_parens {s : String} {P : List Token → Prop} (h : Renders s P) :
    Renders ("(" ++ s ++ ")") fun us => ∃ a ts b, us = a :: (ts ++ [b]) ∧ a.kind = .leftParen ∧
      P ts ∧ b.kind = .rightParen := by
  have hclose : Renders (")" ++ "") _ :=
    Renders.symbol rfl (fun _ => rfl) (by decide) Token.renders_empty
  have hinside := h.append hclose fun _ _ => Token.apart_cons rfl
  rw [String.append_assoc]
  refine (Renders.symbol rfl (fun _ => rfl) (by decide) hinside).mono ?_
  rintro us ⟨a, _, rfl, ha, ts, _, rfl, hts, b, _, rfl, hb, rfl⟩
  exact ⟨a, ts, b, rfl, ha, hts, hb⟩

theorem renders_no_arguments : Renders (printArguments []) (Arguments · []) := by
  refine (renders_parens Token.renders_empty).mono ?_
  rintro us ⟨a, _, b, rfl, ha, rfl, hb⟩
  exact .none ha hb

theorem renders_arguments_of_items
    (h : Renders (", ".intercalate (printList args)) (Items · args)) :
    Renders (printArguments args) (Arguments · args) :=
  (renders_parens h).mono fun _ ⟨_, _, _, hus, ha, hts, hb⟩ => hus ▸ .some ha hts hb

theorem renders_items_last (h : ReadsBack t) :
    Renders (", ".intercalate (printList [t])) (Items · [t]) := by
  rw [printList, printList, String.intercalate_singleton]
  exact h.mono fun _ hus => .last hus.1

theorem renders_items_more (h : ReadsBack t) (hne : args ≠ [])
    (hargs : Renders (", ".intercalate (printList args)) (Items · args)) :
    Renders (", ".intercalate (printList (t :: args))) (Items · (t :: args)) := by
  have hcomma : (", " : String) = "," ++ " " := rfl
  have hprint : ", ".intercalate (printList (t :: args)) =
      t.print ++ ("," ++ (" " ++ ", ".intercalate (printList args))) := by
    obtain _ | ⟨u, args⟩ := args
    · exact absurd rfl hne
    · rw [printList, printList, String.intercalate_cons_cons, hcomma]
      simp only [String.append_assoc]
  rw [hprint]
  have hothers : Renders ("," ++ (" " ++ ", ".intercalate (printList args))) _ :=
    Renders.symbol rfl (fun _ => rfl) (by decide) hargs.space
  refine (h.append hothers fun _ _ => ?_).mono ?_
  · rw [String.toList_append]
    exact Token.apart_cons rfl
  · rintro us ⟨as, _, rfl, has, c, bs, rfl, hc, hbs⟩
    exact .more has.1 hc hbs

end

mutual

theorem readsBack_primary {ts : List Token} {t : Template} :
    Primary ts t → (∀ x ∈ ts, x.Spelled) → (∀ s ∈ t.nodes, Stable s) → ReadsBack t
  | .literal h, _, hstable => readsBack_literal h (hstable t t.mem_nodes)
  | .parens _ h _, hspelled, hstable =>
    readsBack h (fun x hx => hspelled x (by simp [hx])) hstable
  | .new _ hnames hargs, hspelled, hstable => by
    rw [nodes] at hstable
    exact readsBack_new hnames (fun x hx => hspelled x (by simp [hx]))
      (renders_arguments hargs (fun x hx => hspelled x (by simp [hx]))
        fun s hs => hstable s (List.mem_cons_of_mem _ hs))
  | .path h, hspelled, _ => readsBack_path h hspelled
  | .call hnames hargs, hspelled, hstable => by
    rw [nodes] at hstable
    exact readsBack_callPath hnames (fun x hx => hspelled x (by simp [hx]))
      (renders_arguments hargs (fun x hx => hspelled x (by simp [hx]))
        fun s hs => hstable s (List.mem_cons_of_mem _ (List.mem_append_right _ hs)))

theorem readsBack {ts : List Token} {t : Template} :
    Expression ts t → (∀ x ∈ ts, x.Spelled) → (∀ s ∈ t.nodes, Stable s) → ReadsBack t
  | .primary h, hspelled, hstable => readsBack_primary h hspelled hstable
  | .field h _ _ hx, hspelled, hstable => by
    rw [nodes] at hstable
    have htarget := readsBack h (fun x hx => hspelled x (by simp [hx]))
      fun s hs => hstable s (List.mem_cons_of_mem _ hs)
    exact htarget.field (isName_of_spelled (hspelled _ (by simp)) hx)
      (hstable _ List.mem_cons_self)
  | .call h _ _ hx hargs, hspelled, hstable => by
    rw [nodes] at hstable
    have htarget := readsBack h (fun x hx => hspelled x (by simp [hx]))
      fun s hs => hstable s (List.mem_cons_of_mem _ (List.mem_append_left _ hs))
    have harguments := renders_arguments hargs (fun x hx => hspelled x (by simp [hx]))
      fun s hs => hstable s (List.mem_cons_of_mem _ (List.mem_append_right _ hs))
    exact htarget.call (isName_of_spelled (hspelled _ (by simp)) hx) harguments

theorem renders_arguments {ts : List Token} {args : List Template} :
    Arguments ts args → (∀ x ∈ ts, x.Spelled) → (∀ s ∈ nodesList args, Stable s) →
      Renders (printArguments args) (Arguments · args)
  | .none _ _, _, _ => renders_no_arguments
  | .some _ h _, hspelled, hstable =>
    renders_arguments_of_items (renders_items h (fun x hx => hspelled x (by simp [hx])) hstable)

theorem renders_items {ts : List Token} {args : List Template} :
    Items ts args → (∀ x ∈ ts, x.Spelled) → (∀ s ∈ nodesList args, Stable s) →
      Renders (", ".intercalate (printList args)) (Items · args)
  | .last h, hspelled, hstable =>
    renders_items_last (readsBack h hspelled fun s hs => hstable s (by simp [nodesList, hs]))
  | .more h _ hrest, hspelled, hstable =>
    renders_items_more
      (readsBack h (fun x hx => hspelled x (by simp [hx]))
        fun s hs => hstable s (by simp [nodesList, hs]))
      hrest.ne_nil
      (renders_items hrest (fun x hx => hspelled x (by simp [hx]))
        fun s hs => hstable s (by simp [nodesList, hs]))

end

/-! ## Templates -/

theorem stable_of_nodes {t : Template}
    (hfields : ∀ parts name, .field (.path parts) name ∉ t.nodes)
    (htexts : ∀ value, .str value ∈ t.nodes → ∀ c ∈ value.toList, IsPlain c) :
    ∀ s ∈ t.nodes, Stable s := by
  intro s hs
  cases s with
  | field target name =>
    cases target with
    | path parts => exact hfields parts name hs
    | _ => trivial
  | str value => exact htexts value hs
  | _ => trivial

/-- **A template is what its text is read back as.** A field of what a plain path denotes is
printed like a longer path, and characters without a short escape are printed by their code
point. -/
theorem parse_print {source : String} {t : Template} (h : parse source = .ok t)
    (hfields : ∀ parts name, .field (.path parts) name ∉ t.nodes)
    (htexts : ∀ value, .str value ∈ t.nodes → ∀ c ∈ value.toList, IsPlain c) :
    parse t.print = .ok t := by
  obtain ⟨tokens, hscan, hsentence⟩ := parse_eq_ok.mp h
  have hspelled := (Token.scan_eq_ok.mp hscan).spelled
  have hstable := stable_of_nodes hfields htexts
  have hback : ReadsBack t := by
    cases hsentence with
    | plain he => exact readsBack he hspelled hstable
    | ended he => exact readsBack he (fun x hx => hspelled x (List.mem_append_left _ hx)) hstable
  obtain ⟨ts, offset, ⟨he, -⟩, hcut⟩ := hback [] Token.apart_nil 0
  have hprinted := hcut [] .nil
  rw [List.append_nil, List.append_nil] at hprinted
  exact parse_eq_ok.mpr ⟨ts, Token.scan_eq_ok.mpr hprinted, .plain he⟩

theorem parse_print_call :
    parse "(a.b($01, \"\\t\")).c;" =
      .ok (.field (.call (some (.path ["a"])) "b" [.param 1, .str "\t"]) "c") ∧
    parse "a.b($1, \"\\t\").c" =
      .ok (.field (.call (some (.path ["a"])) "b" [.param 1, .str "\t"]) "c") := by
  have hparse : parse "(a.b($01, \"\\t\")).c;" =
      .ok (.field (.call (some (.path ["a"])) "b" [.param 1, .str "\t"]) "c") := by cbv
  have hprint : print (.field (.call (some (.path ["a"])) "b" [.param 1, .str "\t"]) "c") =
      "a.b($1, \"\\t\").c" := by cbv
  have hagain := parse_print hparse (by simp [nodes, nodesOption, nodesList])
    (by simp [nodes, nodesOption, nodesList, IsPlain])
  rw [hprint] at hagain
  exact ⟨hparse, hagain⟩

end ClassSynth.Template
