import ClassSynth.Proofs.Body.Occurrences
import ClassSynth.Proofs.Meaning.Builders
import ClassSynth.Proofs.Synthesis.Reads

/-!
# What `toString` returns

A body that uses a string builder is one chain of calls, as long as the list of members. It returns
the text that is described directly, without builders (`Others.displayText`).

**Overloads.** The overload that a value goes to appends the text of the value, whatever its type is
(`appended_appendParam`), and is one for operands of its size (`Suited`).

**Evaluation.** An expression `Builds` a text if it leaves one more string builder behind, which
holds the text. This is kept by each call of the chain, so by all of them, by induction on the
members.

**Requests.** What other methods are asked on the way is read off the description (`Asks`).

Main result: `returns_displayText`.
-/

namespace ClassSynth

open Synthesis

/-! ## The text of an object -/

/-- The method that gives the text of an object. -/
def textMethod (owner : TypeName) : MethodRef :=
  { owner, name := "toString", params := [], ret := .string }

namespace Others

variable (w : Others)

/-- The name of a member, and its value as a text. -/
def memberText (owner : TypeName) (receiver : Nat) (m : Member) : Asking (List UInt16) := do
  let reply ← w.read receiver (m.reader owner)
  return unitsOf (m.field ++ "=") ++ (← w.textOf m.exposedType reply)

/-- The text that the `toString` of the superclass returns, if it is called. -/
def inheritedText (callSuper : Bool) (superclass : TypeName) (receiver : Nat) :
    Asking (List UInt16) :=
  if callSuper then do
    w.textOf .string (← w.inheritedReply receiver (textMethod superclass))
  else return []

/-- The simple name of the class and, in braces, the members with commas between them. The inherited
text may follow. -/
def displayText (callSuper : Bool) (owner superclass : TypeName) (receiver : Nat)
    (shown : List Member) : Asking (List UInt16) := do
  let parts ← shown.mapM (w.memberText owner receiver)
  let inherited ← w.inheritedText callSuper superclass receiver
  return unitsOf (owner.simpleName ++ "\x7b") ++ (unitsOf ", ").intercalate parts ++
    unitsOf "\x7d" ++ inherited

end Others

/-! ## Overloads -/

section

variable {w : Others} {t : TypeName} {r : Reply}

/-- The parameter of the overload is as wide as the value, and a reference if the value is one. -/
theorem slotSize_appendParam (ht : t.isVoid = false) :
    (appendParam t).slotSize = t.slotSize ∧ (appendParam t).isReference = t.isReference := by
  unfold appendParam displayParam
  split_ifs with hstring
  · rw [beq_iff_eq.mp hstring]
    exact ⟨rfl, rfl⟩
  · cases hp : t.primitive? with
    | none =>
      have href : t.isReference = true := TypeName.isReference_of_primitive? hp ht
      rw [href, TypeName.slotSize_of_isReference href]
      exact ⟨rfl, rfl⟩
    | some p =>
      obtain rfl := TypeName.eq_ofPrimitive hp
      cases p <;> decide

/-- Values of reference types go to the overloads for strings and for objects. -/
theorem appendParam_of_primitive? (hp : t.primitive? = none) :
    appendParam t = if t = .string then .string else .object := by
  rw [appendParam, displayParam, hp]
  simp only [beq_iff_eq]

/-- The overload for a type takes all values of the type, and appends the text of its argument. -/
theorem appended_appendParam (hr : r.isOf t = true) :
    w.appended (appendParam t) r = (w.textOf t r).lift := by
  have href : t.primitive?.isNone = true → appendParam t = .string ∨ appendParam t = .object := by
    intro hp
    rw [appendParam_of_primitive? (Option.isNone_iff_eq_none.mp hp)]
    split_ifs
    · exact .inl rfl
    · exact .inr rfl
  cases r with
  | prim v =>
    obtain ⟨p, hp, hv⟩ := (Option.any_eq_true _ _).mp hr
    obtain rfl := TypeName.eq_ofPrimitive hp
    cases p <;> cases v <;> cases hv <;> rfl
  | null => exact if_pos (href hr)
  | text units => exact if_pos (href hr)
  | object o =>
    obtain ⟨hp, hstring⟩ := (Bool.and_eq_true _ _).mp hr
    have hobject : appendParam t = .object := by
      rw [appendParam_of_primitive? (Option.isNone_iff_eq_none.mp hp)]
      exact if_neg (bne_iff_ne.mp hstring)
    exact if_pos hobject

end

/-! ## Evaluation -/

namespace Others

variable (w : Others) (receiver : Nat)

/-- The value of an expression in a method of the object. -/
def value (e : Expr) : Composing Composed :=
  e.value w.builderOperations ⟨some (.reply (.object receiver)), []⟩ []

/-- The expression has the value that a method replies, which is of the type. -/
structure Gives (e : Expr) (t : TypeName) (x : Asking Reply) : Prop where
  run : ∀ s, (w.value receiver e).run s =
    some (.reply (x.run s.asked).1, { s with asked := (x.run s.asked).2 })
  isOf : ∀ asked, (x.run asked).1.isOf t = true

/-- The expression makes a string builder with the text. -/
def Builds (e : Expr) (x : Asking (List UInt16)) : Prop :=
  ∀ s, (w.value receiver e).run s = some (.builder s.builders.length,
    ⟨(x.run s.asked).2, s.builders ++ [(x.run s.asked).1]⟩)

variable {w receiver} {builder e : Expr} {t : TypeName} {x : Asking (List UInt16)}
  {y : Asking Reply}

theorem gives_str (text : String) :
    w.Gives receiver (.str text) .string (pure (.text (unitsOf text))) :=
  ⟨fun _ => rfl, fun _ => rfl⟩

theorem gives_read (owner : TypeName) (m : Member) :
    w.Gives receiver (m.read owner .this) m.exposedType (w.read receiver (m.reader owner)) :=
  ⟨fun _ => rfl, fun asked => w.reply_isOf asked receiver (m.reader owner)⟩

/-- A call evaluates its receiver and then its arguments. -/
theorem run_invokeVirtual {m : MethodRef} (hm : m.onInterface = false) (args : List Expr)
    (s : BuilderState) :
    (w.value receiver (e.invokeVirtual m args)).run s =
      ((w.value receiver e).run s).bind fun (v, s) =>
        ((Expr.values w.builderOperations ⟨some (.reply (.object receiver)), []⟩ [] args).run
          s).bind fun (vs, s) => (w.call .virtual m (some v) vs).run s := by
  unfold value
  rw [Expr.invokeVirtual, if_neg (by simp [hm]), Expr.value, if_neg nofun, Expr.receiverValue]
  simp only [StateT.run_bind, bind_assoc, pure_bind, Option.bind_eq_bind]
  rfl

/-- The overload for a type appends the text of a value of the type. -/
theorem run_appendTo {r : Reply} (hr : r.isOf t = true) {b : Nat} {text : List UInt16}
    {s : BuilderState} (hs : s.builders[b]? = some text) :
    (w.appendTo b (appendParam t) r).run s = some (.builder b,
      ⟨((w.textOf t r).run s.asked).2,
        s.builders.set b (text ++ ((w.textOf t r).run s.asked).1)⟩) := by
  have hlift : (w.appended (appendParam t) r).run s = some (((w.textOf t r).run s.asked).1,
      { s with asked := ((w.textOf t r).run s.asked).2 }) := by
    rw [appended_appendParam hr]
    rfl
  rw [appendTo, StateT.run_bind, hlift]
  simp [hs, Meaning.known]

theorem Builds.append (hbuilder : w.Builds receiver builder x) (he : w.Gives receiver e t y) :
    w.Builds receiver (Synthesis.append builder e t)
      (do return (← x) ++ (← w.textOf t (← y))) := by
  intro s
  have hvalues : ∀ s, (Expr.values w.builderOperations ⟨some (.reply (.object receiver)), []⟩ []
      [e]).run s = some ([.reply (y.run s.asked).1], { s with asked := (y.run s.asked).2 }) := by
    intro s
    have hvalue := he.run s
    rw [value] at hvalue
    simp [Expr.values, hvalue]
  rw [Synthesis.append, run_invokeVirtual rfl, hbuilder s]
  simp only [Option.bind_some, hvalues]
  have hlast : (s.builders ++ [(x.run s.asked).1])[s.builders.length]?
      = some (x.run s.asked).1 := List.getElem?_concat_length
  rw [call]
  refine (run_appendTo (he.isOf _) hlast).trans ?_
  rw [List.set_append_right _ _ (Nat.le_refl _), Nat.sub_self]
  rfl

theorem Builds.congr {x' : Asking (List UInt16)} (h : w.Builds receiver builder x) (hx : x = x') :
    w.Builds receiver builder x' :=
  hx ▸ h

/-- A new builder holds the text that it is made with. -/
theorem builds_new (text : String) :
    w.Builds receiver (.new builderClass [.string] [.str text]) (pure (unitsOf text)) :=
  fun _ => rfl

theorem Builds.appendText (h : w.Builds receiver builder x) (text : String) :
    w.Builds receiver (Synthesis.appendText builder text) (do return (← x) ++ unitsOf text) :=
  h.append (gives_str text)

theorem Builds.appendMember (h : w.Builds receiver builder x) (owner : TypeName) (m : Member) :
    w.Builds receiver (Synthesis.appendMember owner builder m)
      (do return (← x) ++ (← w.memberText owner receiver m)) := by
  refine ((h.appendText _).append (gives_read owner m)).congr ?_
  simp only [memberText, bind_assoc, pure_bind, List.append_assoc]

/-- What is put between members is put in front of all members but the first. -/
theorem Builds.appendRest (h : w.Builds receiver builder x) (owner : TypeName)
    (rest : List Member) :
    w.Builds receiver
      (rest.foldl (fun b m => Synthesis.appendMember owner (Synthesis.appendText b ", ") m) builder)
      (do
        let text ← x
        return text ++
          (← rest.mapM (w.memberText owner receiver)).flatMap (unitsOf ", " ++ ·)) := by
  induction rest generalizing builder x with
  | nil =>
    refine h.congr ?_
    simp
  | cons m rest ih =>
    refine (ih ((h.appendText ", ").appendMember owner m)).congr ?_
    simp

theorem intercalate_cons {α : Type} (sep part : List α) (parts : List (List α)) :
    sep.intercalate (part :: parts) = part ++ parts.flatMap (sep ++ ·) := by
  induction parts generalizing part with
  | nil => simp
  | cons next parts ih => rw [List.intercalate_cons_cons, ih]; simp

theorem Builds.appendMembers (h : w.Builds receiver builder x) (owner : TypeName)
    (members : List Member) :
    w.Builds receiver (Synthesis.appendMembers owner builder members)
      (do return (← x) ++
        (unitsOf ", ").intercalate (← members.mapM (w.memberText owner receiver))) := by
  cases members with
  | nil =>
    refine h.congr ?_
    simp
  | cons m rest =>
    refine ((h.appendMember owner m).appendRest owner rest).congr ?_
    simp [intercalate_cons]

theorem gives_inherited (superclass : TypeName) :
    w.Gives receiver (.invokeSuper (textMethod superclass) []) .string
      (w.inheritedReply receiver (textMethod superclass)) := by
  refine ⟨fun _ => rfl, fun asked => ?_⟩
  have hreply : ((w.inheritedReply receiver (textMethod superclass)).run asked).1 =
    (w.inherited asked receiver (textMethod superclass)).elim .null .text := rfl
  rw [hreply]
  cases w.inherited asked receiver (textMethod superclass) <;> rfl

/-- The text of a builder. -/
theorem Builds.run_textOf (h : w.Builds receiver builder x) (s : BuilderState) :
    (w.value receiver (Synthesis.textOf builderClass builder)).run s =
      some (.reply (.text (x.run s.asked).1),
        ⟨(x.run s.asked).2, s.builders ++ [(x.run s.asked).1]⟩) := by
  rw [Synthesis.textOf, run_invokeVirtual rfl, h s]
  simp [Expr.values, call, Meaning.known]

theorem exists_builds_builderDisplay (callSuper : Bool) (owner superclass : TypeName)
    (shown : List Member) :
    ∃ builder, builderDisplay callSuper owner superclass shown
        = Synthesis.textOf builderClass builder ∧
      w.Builds receiver builder (w.displayText callSuper owner superclass receiver shown) := by
  have hstart : w.Builds receiver (.new builderClass [.string] [.str (owner.simpleName ++ "\x7b")])
      (pure (unitsOf (owner.simpleName ++ "\x7b"))) := builds_new _
  have hclosed := (hstart.appendMembers owner shown).appendText "\x7d"
  cases callSuper with
  | false =>
    refine ⟨_, rfl, hclosed.congr ?_⟩
    simp only [displayText, inheritedText, bind_assoc, pure_bind, List.append_assoc,
      List.append_nil, Bool.false_eq_true, if_false]
  | true =>
    refine ⟨_, rfl, (hclosed.append (gives_inherited superclass)).congr ?_⟩
    simp only [displayText, inheritedText, bind_assoc, pure_bind, List.append_assoc, if_true]

/-- A body that uses a string builder returns the text. -/
theorem run_toStringBody (w : Others) (receiver : Nat) {d : ToStringDirective}
    (hd : d.useHelper = false) (owner superclass : TypeName) (members : List Member)
    (s : BuilderState) :
    (w.result (toStringBody d owner superclass members) receiver).run s =
      some (.reply (.text ((w.displayText d.callSuper owner superclass receiver
          (shownMembers members)).run s.asked).1),
        ⟨((w.displayText d.callSuper owner superclass receiver
            (shownMembers members)).run s.asked).2,
          s.builders ++ [((w.displayText d.callSuper owner superclass receiver
            (shownMembers members)).run s.asked).1]⟩) := by
  obtain ⟨builder, hdisplay, hbuilder⟩ := @exists_builds_builderDisplay w receiver d.callSuper owner
    superclass (shownMembers members)
  have hbody : toStringBody d owner superclass members =
      [.ret (some (Synthesis.textOf builderClass builder))] := by
    simp only [toStringBody, hd, hdisplay, Bool.false_eq_true, if_false]
  have hvalue := hbuilder.run_textOf s
  unfold value at hvalue
  unfold result Meaning.resultOf
  rw [hbody]
  simp [Stmt.outcomeAll, Stmt.outcome, hvalue]

end Others

/-! ## What is asked -/

/-- Apart from the texts of objects, the steps ask exactly this, in this order. -/
def Asks {α : Type} (x : Asking α) (requests : List Request) : Prop :=
  ∀ before, ∃ asked, (x.run before).2 = before ++ asked ∧ asked.filter (!·.isText) = requests

namespace Asks

variable {α β : Type} {x : Asking α} {f : α → Asking β} {requests requests' : List Request}

theorem pure (a : α) : Asks (pure a) [] :=
  fun before => ⟨[], (List.append_nil before).symm, rfl⟩

theorem bind (hx : Asks x requests) (hf : ∀ a, Asks (f a) requests') :
    Asks (x >>= f) (requests ++ requests') := by
  intro before
  obtain ⟨asked, hasked, rfl⟩ := hx before
  obtain ⟨asked', hasked', rfl⟩ := hf (x.run before).1 (x.run before).2
  refine ⟨asked ++ asked', ?_, List.filter_append ..⟩
  rw [← List.append_assoc, ← hasked]
  exact hasked'

/-- What is done with the result asks nothing. -/
theorem bind_pure (hx : Asks x requests) (g : α → β) :
    Asks (x >>= fun a => Pure.pure (g a)) requests :=
  List.append_nil requests ▸ hx.bind fun a => pure (g a)

theorem ask (r : Request) (reply : List Request → α) :
    Asks (Others.ask r reply) ([r].filter (!·.isText)) :=
  fun _ => ⟨[r], rfl, rfl⟩

theorem mapM {g : α → Request} (hf : ∀ a, Asks (f a) [g a]) (as : List α) :
    Asks (as.mapM f) (as.map g) := by
  induction as with
  | nil => exact pure []
  | cons a as ih =>
    rw [List.mapM_cons]
    exact (hf a).bind fun b => ih.bind_pure (b :: ·)

end Asks

namespace Others

variable {w : Others} {receiver : Nat}

theorem asks_textOf (t : TypeName) (r : Reply) : Asks (w.textOf t r) [] := by
  cases r with
  | prim v => exact .pure _
  | null => exact .pure _
  | text units => exact .pure _
  | object o => exact (Asks.ask (.text o) _).bind fun _ => .pure _

theorem asks_memberText (owner : TypeName) (m : Member) :
    Asks (w.memberText owner receiver m) [.method receiver (m.reader owner)] :=
  (Asks.ask (.method receiver (m.reader owner)) _).bind fun r =>
    (asks_textOf m.exposedType r).bind_pure _

theorem asks_inheritedText (callSuper : Bool) (superclass : TypeName) :
    Asks (w.inheritedText callSuper superclass receiver)
      (if callSuper then [.inherited receiver (textMethod superclass)] else []) := by
  cases callSuper with
  | false => exact .pure []
  | true =>
    exact ((Asks.ask (.inherited receiver (textMethod superclass)) _).bind_pure _).bind fun r =>
      asks_textOf .string r

/-- The accessors of the members are called in their order, and then the inherited method. -/
theorem asks_displayText (callSuper : Bool) (owner superclass : TypeName) (shown : List Member) :
    Asks (w.displayText callSuper owner superclass receiver shown)
      (shown.map (fun m => .method receiver (m.reader owner)) ++
        if callSuper then [.inherited receiver (textMethod superclass)] else []) :=
  (Asks.mapM (asks_memberText owner) shown).bind fun _ =>
    (asks_inheritedText callSuper superclass).bind_pure _

end Others

/-! ## What goes to which overload -/

namespace Synthesis

/-- The method of string builders that appends a value. -/
def appendMethod (param : TypeName) : MethodRef :=
  { owner := builderClass, name := "append", params := [param], ret := builderClass }

/-- A call without arguments, or one that appends a value, in a method of the class without
parameters: a value as wide as the parameter, and a reference exactly if the parameter is one. -/
def Suits (owner : TypeName) (call : MethodRef × List Expr) : Prop :=
  call.2 = [] ∨ ∃ param value t, call = (appendMethod param, [value]) ∧
    value.valueType? owner [] = some t ∧ param.slotSize = t.slotSize ∧
    param.isReference = t.isReference

/-- All calls with arguments append values so. -/
def Suited (owner : TypeName) (e : Expr) : Prop :=
  ∀ call ∈ e.calls, Suits owner call

variable {owner t : TypeName} {builder e : Expr}

theorem suited_append (hbuilder : Suited owner builder) (he : Suited owner e)
    (htype : e.valueType? owner [] = some t) (ht : t.isVoid = false) :
    Suited owner (append builder e t) := by
  intro call hcall
  rw [append, Expr.calls_invokeVirtual, Expr.callsList, Expr.callsList, List.append_nil] at hcall
  simp only [List.mem_append, List.mem_singleton] at hcall
  rcases hcall with (hcall | hcall) | rfl
  · exact hbuilder call hcall
  · exact he call hcall
  · exact .inr ⟨_, e, t, rfl, htype, slotSize_appendParam ht⟩

theorem suited_appendText (h : Suited owner builder) (text : String) :
    Suited owner (appendText builder text) :=
  suited_append h nofun rfl (by decide)

theorem suited_invokeVirtual_nil (h : Suited owner e) (m : MethodRef) :
    Suited owner (e.invokeVirtual m []) := by
  intro call hcall
  rw [Expr.calls_invokeVirtual, Expr.callsList, List.append_nil, List.mem_append,
    List.mem_singleton] at hcall
  rcases hcall with hcall | rfl
  · exact h call hcall
  · exact .inl rfl

theorem suited_appendMember (h : Suited owner builder) {m : Member} (hm : m.isVoid = false) :
    Suited owner (appendMember owner builder m) :=
  have hthis : Suited owner .this := nofun
  suited_append (suited_appendText h _) (suited_invokeVirtual_nil hthis _) rfl hm

theorem suited_appendMembers (h : Suited owner builder) {members : List Member}
    (hmembers : ∀ m ∈ members, m.isVoid = false) :
    Suited owner (appendMembers owner builder members) := by
  cases members with
  | nil => exact h
  | cons m rest =>
    have hfirst := suited_appendMember h (hmembers m List.mem_cons_self)
    exact List.foldlRecOn rest _ hfirst fun b hb m' hm' =>
      suited_appendMember (suited_appendText hb _) (hmembers m' (List.mem_cons_of_mem _ hm'))

theorem suited_builderDisplay (callSuper : Bool) (owner superclass : TypeName)
    {shown : List Member} (hshown : ∀ m ∈ shown, m.isVoid = false) :
    Suited owner (builderDisplay callSuper owner superclass shown) := by
  have hstart : Suited owner (.new builderClass [.string] [.str (owner.simpleName ++ "\x7b")]) :=
    nofun
  have hclosed := suited_appendText (suited_appendMembers hstart hshown) "\x7d"
  have hinherited : Suited owner (.invokeSuper (textMethod superclass) []) := by
    intro call hcall
    obtain rfl := List.mem_singleton.mp hcall
    exact .inl rfl
  cases callSuper with
  | false => exact suited_invokeVirtual_nil hclosed _
  | true => exact suited_invokeVirtual_nil (suited_append hclosed hinherited rfl rfl) _

theorem isVoid_of_mem_shownMembers {members : List Member} {m : Member}
    (h : m ∈ shownMembers members) : m.isVoid = false := by
  have hshown := (List.mem_filter.mp h).2
  rw [Bool.and_eq_true, Bool.not_eq_true'] at hshown
  exact hshown.1

theorem suits_toStringBody {d : ToStringDirective} (hd : d.useHelper = false)
    (owner superclass : TypeName) (members : List Member) :
    ∀ call ∈ Stmt.callsList (toStringBody d owner superclass members), Suits owner call := by
  intro call hcall
  unfold toStringBody at hcall
  simp only [hd, Bool.false_eq_true, if_false, Stmt.callsList, Stmt.calls, Expr.callsOption,
    List.append_nil] at hcall
  exact suited_builderDisplay d.callSuper owner superclass (fun m => isVoid_of_mem_shownMembers)
    call hcall

end Synthesis

/-! ## The body -/

/-- What `toString` returns if it uses a string builder: the simple name of the class and, in
braces, the members that have a value and are not left out, in their order, each as its name and its
value with `=` between them; then the inherited text, if the directive asks for it. On the way there
the accessors of these members are called on the object, each once and in this order, then the
inherited method, and otherwise only texts of objects are asked for. Every call with an argument
appends a value by the overload of a parameter that is as wide, and a reference if the value is
one. -/
theorem returns_displayText (w : Others) {d : ToStringDirective} (hstyle : d.useHelper = false)
    (owner superclass : TypeName) (members : List Member) (receiver : Nat) :
    let shown := members.filter fun m => !m.isVoid && !m.accessor.directives.toStringExclude
    (∀ before builders, ∃ text asked,
      (w.displayText d.callSuper owner superclass receiver shown).run before
        = (text, before ++ asked) ∧
      (w.result (toStringBody d owner superclass members) receiver).run ⟨before, builders⟩
        = some (.reply (.text text), ⟨before ++ asked, builders ++ [text]⟩) ∧
      asked.filter (!·.isText) = shown.map (fun m => .method receiver (m.reader owner)) ++
        if d.callSuper then [.inherited receiver (textMethod superclass)] else []) ∧
    ∀ call ∈ Stmt.callsList (toStringBody d owner superclass members), Suits owner call := by
  intro shown
  refine ⟨fun before builders => ?_, suits_toStringBody hstyle owner superclass members⟩
  have hasks : Asks (w.displayText d.callSuper owner superclass receiver shown) _ :=
    Others.asks_displayText d.callSuper owner superclass shown
  obtain ⟨asked, hasked, hrequests⟩ := hasks before
  have hresult := w.run_toStringBody receiver hstyle owner superclass members ⟨before, builders⟩
  refine ⟨_, asked, Prod.ext rfl hasked, hresult.trans ?_, hrequests⟩
  rw [← hasked]
  rfl

/-- Objects whose texts are `Ada`, with an inherited text. -/
def adas : Others where
  reply _ _ m := match m.ret.primitive? with
    | none => .text (unitsOf "Ada")
    | some .boolean => .prim (.bool true)
    | some .long => .prim (.long 36)
    | some .float => .prim (.float 0)
    | some .double => .prim (.double 0)
    | some _ => .prim (.int 36)
  reply_isOf _ _ m := by
    cases h : m.ret.primitive? with
    | none => simp [Reply.isOf, h]
    | some p => cases p <;> simp [Reply.isOf, h, PrimitiveValue.isOf]
  text _ _ := none
  inherited _ _ _ := some (unitsOf "@1")
  floats := ⟨fun _ => unitsOf "0.0", fun _ => unitsOf "0.0"⟩

/-- A text, a member that is left out, and a number. -/
def registered : List Member :=
  [⟨"name", .string, { name := "getName", returnType := .string }⟩,
    ⟨"token", .string,
      { name := "getToken", returnType := .string, directives := { toStringExclude := true } }⟩,
    ⟨"age", .int, { name := "getAge", returnType := .int }⟩]

theorem returns_displayText_registered :
    ∃ asked : List Request, asked.length = 3 ∧
      (adas.result (toStringBody { callSuper := true } ⟨"demo.PersonImpl"⟩ ⟨"demo.Base"⟩
          registered) 1).run ⟨[], []⟩
        = some (.reply (.text (unitsOf "PersonImpl\x7bname=Ada, age=36\x7d@1")),
          ⟨asked, [unitsOf "PersonImpl\x7bname=Ada, age=36\x7d@1"]⟩) := by
  let d : ToStringDirective := { callSuper := true }
  have hstyle : d.useHelper = false := rfl
  obtain ⟨hruns, _⟩ :=
    returns_displayText adas hstyle ⟨"demo.PersonImpl"⟩ ⟨"demo.Base"⟩ registered 1
  obtain ⟨text, asked, htext, hresult, hasked⟩ := hruns [] []
  have hunits : text = unitsOf "PersonImpl\x7bname=Ada, age=36\x7d@1" :=
    (congrArg Prod.fst htext).symm.trans (by decide +kernel)
  have hlength : ([] ++ asked).length = 3 :=
    (congrArg (·.2.length) htext).symm.trans (by decide +kernel)
  exact ⟨_, hlength, hunits ▸ hresult⟩

end ClassSynth
