import ClassSynth.Proofs.Acceptance.Conditions
import ClassSynth.Proofs.Verifier.Balanced
import ClassSynth.Proofs.Verifier.Parameters
import ClassSynth.Proofs.Verifier.Typing

/-!
# Wide values stay whole

No step of lowering takes the halves of a wide value apart, if the operands of the body take the
slots that their positions ask for.

**Expressions.** The code of an expression puts one value on the stack, of as many slots as its type
(`works_expr`), or takes a condition off it and jumps. Where a condition becomes a value, either the
code for zero is reached, or it is passed by a jump that is always taken (`Forks`).

**Statements.** Between two statements the stack is as it was when the block started, and the
variables are those of the scope (`Settled`, `works_stmts`).

Main result: `wide_whole_throughout`.
-/

namespace ClassSynth

open Emit Emitter VerificationType

/-- The names and types of the local variables. -/
def declarationsOf (vars : List NamedLocal) : Declarations :=
  vars.map fun l => (l.name, l.type)

theorem lookup_declarationsOf (vars : List NamedLocal) (name : String) :
    (declarationsOf vars).lookup name = (vars.find? (·.name == name)).map (·.type) := by
  induction vars with
  | nil => rfl
  | cons l vars ih =>
    have hcons : declarationsOf (l :: vars) = (l.name, l.type) :: declarationsOf vars := rfl
    rw [hcons, List.lookup_cons, List.find?_cons, ih, BEq.comm]
    cases l.name == name <;> rfl

namespace Destination

/-- The label of a jump expects the rest of the stack. -/
def Expects (known : Expected) (sizes : List Nat) : Destination → Prop
  | .value => True
  | .jumpIfFalse l => known l = some sizes

/-- The stack behind the code for a value of so many slots. -/
def rest (sizes : List Nat) (slots : Nat) : Destination → List Nat
  | .value => sizes ++ [slots]
  | .jumpIfFalse _ => sizes

end Destination

section

variable {α β : Type} {ctx : MethodContext} {known : Expected} {vars : List NamedLocal} {next : Nat}
  {sizes sizes' us m : List Nat} {post : α → Emitter → Prop}

theorem Carries.bind {x : Emit α} {f : α → Emit β} {last : β → Emitter → Prop}
    (hx : Carries ctx known vars next sizes x sizes')
    (hf : ∀ a, Works Whole ctx (Balanced ctx known vars next sizes') (f a) last) :
    Works Whole ctx (Balanced ctx known vars next sizes) (x >>= f) last :=
  Works.bind hx hf

theorem Carries.pure {a : α} : Carries ctx known vars next sizes (Pure.pure a : Emit α) sizes :=
  (Works.pure fun _ => Balanced.whole).to_post fun _ _ h => h.2

theorem Carries.fail {cause : CodeGenError} :
    Carries ctx known vars next sizes (fail cause : Emit α) sizes' :=
  Works.fail fun _ => Balanced.whole

/-! ## Small pieces -/

theorem works_verificationType {t : TypeName} (ht : t.isVoid = false) :
    Works Whole ctx (Balanced ctx known vars next sizes) (addConstants (verificationType t))
      fun vt e => vt.slots.length = t.slotSize ∧ Balanced ctx known vars next sizes e := by
  intro e he
  obtain ⟨hthroughout, hpost⟩ := carries_addConstants (verificationType t) e he
  refine ⟨hthroughout, fun vt e' h => ⟨?_, hpost vt e' h⟩⟩
  rw [(runs_addConstants.mp h).1]
  exact length_slots_verificationType ht e.pool

theorem carries_pushType (t : TypeName) :
    Carries ctx known vars next sizes (pushType t) (sizes ++ [t.slotSize]) := by
  unfold pushType
  cases hvoid : t.isVoid with
  | true =>
    have hsize : t.slotSize = 0 := if_pos hvoid
    rw [hsize]
    exact Carries.pure.to_post fun _ _ => Balanced.append_zero.mpr
  | false =>
    exact (works_verificationType hvoid).bind fun vt => .assume fun hvt =>
      hvt ▸ carries_push vt

theorem carries_slotInstruction (opcode0 opcode : UInt8) (slot : Nat) :
    Carries ctx known vars next sizes (slotInstruction opcode0 opcode slot) sizes :=
  .ite (fun _ => carries_instruction _ _) fun _ => carries_instruction _ _

theorem carries_load (t : TypeName) (slot : Nat) :
    Carries ctx known vars next sizes (load t slot) (sizes ++ [t.slotSize]) :=
  (carries_slotInstruction _ _ slot).bind fun _ => carries_pushType t

theorem carries_loadConstant (index : UInt16) :
    Carries ctx known vars next sizes (loadConstant index) sizes :=
  .ite (fun _ => carries_instruction _ _) fun _ => carries_instruction _ _

theorem carries_pushInt (value : Int32) :
    Carries ctx known vars next sizes (pushInt value) (sizes ++ [1]) := by
  have hpush : Carries ctx known vars next sizes (push .integer) (sizes ++ [1]) :=
    carries_push .integer
  unfold pushInt
  refine .ite (fun _ => (carries_instruction _ _).bind fun _ => hpush) fun _ => ?_
  refine .ite (fun _ => (carries_instruction _ _).bind fun _ => hpush) fun _ => ?_
  refine .ite (fun _ => (carries_instruction _ _).bind fun _ => hpush) fun _ => ?_
  exact (carries_addConstants _).bind fun index => (carries_loadConstant index).bind fun _ => hpush

theorem works_findLocal (name : String) :
    Works Whole ctx (Balanced ctx known vars next sizes) (findLocal name) fun l e =>
      vars.find? (·.name == name) = some l ∧ Balanced ctx known vars next sizes e := by
  unfold findLocal
  refine .get_bind (fun _ => Balanced.whole) fun s hs => ?_
  rw [hs.named]
  cases vars.find? (·.name == name) with
  | none => exact .fail fun _ => Balanced.whole
  | some l => exact (Works.pure fun _ => Balanced.whole).to_post fun _ _ h => ⟨h.1 ▸ rfl, h.2⟩

theorem works_typeOf (x : Expr) :
    Works Whole ctx (Balanced ctx known vars next sizes) (typeOf x) fun t e =>
      x.valueType? ctx.className ctx.params = some t ∧ Balanced ctx known vars next sizes e := by
  unfold typeOf
  refine .read_bind (fun _ => Balanced.whole) ?_
  cases x.valueType? ctx.className ctx.params with
  | none => exact .fail fun _ => Balanced.whole
  | some t => exact (Works.pure fun _ => Balanced.whole).to_post fun _ _ h => ⟨h.1 ▸ rfl, h.2⟩

theorem works_checkCount (params : List TypeName) (args : List Expr) :
    Works Whole ctx (Balanced ctx known vars next sizes) (checkCount params args) fun _ e =>
      (params.map (·.slotSize)).length = args.length ∧ Balanced ctx known vars next sizes e :=
  .ite (fun _ => .fail fun _ => Balanced.whole) fun h =>
    (Works.pure fun _ => Balanced.whole).to_post fun _ _ he =>
      ⟨List.length_map (·.slotSize) |>.trans (not_not.mp h), he.2⟩

/-- Arguments on top of other values. -/
theorem sum_append_slots (us : List Nat) (params : List TypeName) :
    (us ++ params.map (·.slotSize)).sum = totalSlots params + us.sum := by
  rw [List.sum_append, Nat.add_comm]
  rfl

theorem carries_loadThis : Carries ctx known vars next sizes loadThis (sizes ++ [1]) := by
  unfold loadThis
  refine .read_bind (fun _ => Balanced.whole) ?_
  refine .ite (fun _ => .fail_bind fun _ => Balanced.whole) fun hstatic => ?_
  refine (carries_instruction _ _).bind fun _ => .get_bind (fun _ => Balanced.whole) fun s hs => ?_
  have hone : (s.slots.locals.headD .top).slots.length = 1 := by
    rw [VerificationType.length_slots, if_neg]
    rw [List.headD_eq_head?_getD, List.head?_eq_getElem?]
    cases hfirst : s.slots.locals[0]? with
    | none => exact Bool.false_ne_true
    | some u =>
      exact ne_true_of_eq_false (hs.locals.receiver (Bool.eq_false_iff.mpr hstatic) u hfirst)
  exact hone ▸ carries_push _

theorem carries_settle {dest : Destination} {n : Nat} (hdest : dest.Expects known sizes)
    (hn : dest ≠ .value → n = 1) :
    Carries ctx known vars next (sizes ++ [n]) (settle dest) (dest.rest sizes n) := by
  cases dest with
  | value => exact .pure
  | jumpIfFalse l =>
    obtain rfl := hn nofun
    exact carries_branch _ hdest rfl

/-- Two values of one type are compared. -/
theorem carries_compareJump (op : CompareOp) (t : TypeName) {l : Label}
    (hl : known l = some sizes) :
    Carries ctx known vars next (sizes ++ [t.slotSize] ++ [t.slotSize]) (compareJump op t l)
      sizes := by
  rw [List.append_assoc]
  unfold compareJump
  refine .ite (fun href => ?_) fun _ => .ite (fun hint => ?_) fun _ => ?_
  · rw [TypeName.slotSize_of_isReference href]
    exact carries_branch _ hl rfl
  · rw [TypeName.slotSize_of_isIntLike hint]
    exact carries_branch _ hl rfl
  · refine (carries_instruction _ _).bind fun _ => ?_
    have hsum : ([t.slotSize] ++ [t.slotSize]).sum = 2 * t.slotSize := by
      simp only [List.cons_append, List.nil_append, List.sum_cons, List.sum_nil]
      omega
    have hpush : Carries ctx known vars next sizes (push .integer) (sizes ++ [1]) :=
      carries_push .integer
    exact (carries_pop hsum).bind fun _ => hpush.bind fun _ => carries_branch _ hl rfl

theorem carries_methodRef (method : MethodRef) :
    Carries ctx known vars next sizes (methodRef method) sizes :=
  carries_addConstants _

theorem carries_call (kind : CallKind) (method : MethodRef)
    (hus : us.sum = totalSlots method.params + if kind = .static then 0 else 1) :
    Carries ctx known vars next (sizes ++ us) (call kind method)
      (sizes ++ [method.ret.slotSize]) := by
  rw [call_eq]
  exact (carries_methodRef _).bind fun index => (carries_instruction _ _).bind fun _ =>
    (carries_pop hus).bind fun _ => carries_pushType method.ret

theorem carries_newArray (element : TypeName) :
    Carries ctx known vars next (sizes ++ [1]) (newArray element) (sizes ++ [1]) := by
  have hpush : Carries ctx known vars next (sizes ++ [1]) (do pop 1; pushType element.arrayOf)
      (sizes ++ [1]) := by
    have hsize : element.arrayOf.slotSize = 1 := TypeName.slotSize_arrayOf element
    exact (carries_pop rfl).bind fun _ => hsize ▸ carries_pushType element.arrayOf
  unfold newArray
  split
  · exact (carries_instruction _ _).bind fun _ => hpush
  · exact (carries_addConstants _).bind fun _ => (carries_instruction _ _).bind fun _ => hpush

/-- The object under construction lies twice on the stack. -/
theorem works_newObject (t : TypeName) :
    Works Whole ctx (Balanced ctx known vars next sizes) (newObject t) fun made e =>
      (∃ offset, made.2 = .uninitialized offset) ∧
        Balanced ctx known vars next (sizes ++ [1] ++ [1]) e := by
  unfold newObject
  refine .get_bind (fun _ => Balanced.whole) fun s _ => ?_
  have hpush : ∀ (sizes : List Nat) (offset : UInt16),
      Carries ctx known vars next sizes (push (.uninitialized offset)) (sizes ++ [1]) :=
    fun _ offset => carries_push (.uninitialized offset)
  exact (carries_addConstants _).bind fun index => (carries_instruction _ _).bind fun _ =>
    (hpush _ _).bind fun _ => (carries_instruction _ _).bind fun _ => (hpush _ _).bind fun _ =>
    (Works.pure fun _ => Balanced.whole).to_post fun made e h => by
      obtain ⟨rfl, he⟩ := h
      exact ⟨⟨_, rfl⟩, he⟩

theorem carries_callConstructor (t : TypeName) (params : List TypeName)
    (hus : us.sum = totalSlots params + 1) :
    Carries ctx known vars next (sizes ++ us) (callConstructor t params) sizes :=
  (carries_methodRef _).bind fun _ => (carries_instruction _ _).bind fun _ => carries_pop hus

theorem carries_dropValue (t : TypeName) :
    Carries ctx known vars next (sizes ++ [t.slotSize]) (dropValue t) sizes := by
  have hcases : t.slotSize = 0 ∨ t.slotSize = 1 ∨ t.slotSize = 2 := by
    have hle := t.slotSize_le
    omega
  rcases hcases with h | h | h
  · rw [dropValue, h]
    exact Carries.pure.of_pre fun _ => Balanced.append_zero.mp
  · rw [dropValue, h]
    exact (carries_instruction _ _).bind fun _ => carries_pop rfl
  · rw [dropValue, h]
    exact (carries_instruction _ _).bind fun _ => carries_pop rfl

/-! ## Conditions -/

theorem labels_of_pushInt {value : Int32} {e e' : Emitter} {u : Unit}
    (h : Runs (pushInt value) ctx e u e') :
    e'.labels = e.labels ∧ e'.reachable = e.reachable := by
  rcases runs_pushInt.mp h with ⟨i, _, rfl⟩ | ⟨_, rfl⟩
  all_goals exact ⟨rfl, rfl⟩

/-- After a jump that is always taken, only its label leads on. -/
def Bypassed (done : Label) (e : Emitter) : Prop :=
  e.reachable = false ∧ (e.info done).state? ≠ none

theorem works_goto {done : Label} (hdone : known done = some sizes) :
    Works Whole ctx (Balanced ctx known vars next sizes) (branch Opcode.goto done 0) fun _ e =>
      Balanced ctx known vars next sizes e ∧ Bypassed done e := by
  intro e he
  have hcarries : Carries ctx known vars next (sizes ++ []) (branch Opcode.goto done 0) sizes :=
    carries_branch Opcode.goto hdone rfl
  rw [List.append_nil] at hcarries
  obtain ⟨hthroughout, hpost⟩ := hcarries e he
  refine ⟨hthroughout, fun u e' h => ⟨hpost u e' h, ?_⟩⟩
  obtain ⟨s, joint, _, _, rfl⟩ := runs_branch.mp h
  refine ⟨by simp [jumpTo], ?_⟩
  rw [state_jumpTo { e with slots := s } Opcode.goto joint (he.known done sizes hdone).1]
  exact Option.some_ne_none joint

/-- Where the code for zero stands: it is passed, with one stack, or reached, with another. -/
def Forks (ctx : MethodContext) (known : Expected) (vars : List NamedLocal) (next : Nat)
    (done : Label) (passed reached : List Nat) (e : Emitter) : Prop :=
  (Balanced ctx known vars next passed e ∧ Bypassed done e) ∨
    (Balanced ctx known vars next reached e ∧ e.reachable = true)

theorem Forks.whole {done : Label} {e : Emitter}
    (h : Forks ctx known vars next done sizes sizes' e) : e.Whole :=
  h.elim (·.1.whole) (·.1.whole)

theorem works_placeFalse {whenFalse done : Label} (hfalse : known whenFalse = some sizes') :
    Works Whole ctx (fun e => Balanced ctx known vars next sizes e ∧ Bypassed done e)
      (place whenFalse) fun _ => Forks ctx known vars next done sizes sizes' := by
  refine .of_elementary (.place whenFalse) (fun _ he => he.1.whole) ?_ (fun _ _ => Forks.whole)
    fun _ _ he h => he.1.whole_of_fails_place h
  rintro e u e' ⟨he, hreachable, hstate⟩ h
  rcases he.of_place hfalse h with ⟨_, rfl, hbalanced⟩ | ⟨htrue, _⟩ | ⟨_, htrue, hbalanced⟩
  · exact .inl ⟨hbalanced, hreachable, by rwa [state_placed]⟩
  · rw [hreachable] at htrue
    cases htrue
  · exact .inr ⟨hbalanced, htrue⟩

theorem works_zero {done : Label} :
    Works Whole ctx (Forks ctx known vars next done sizes sizes') (pushInt 0) fun _ =>
      Forks ctx known vars next done (sizes ++ [1]) (sizes' ++ [1]) := by
  have hpush : ∀ sizes, Carries ctx known vars next sizes (pushInt 0) (sizes ++ [1]) :=
    fun _ => carries_pushInt 0
  refine ((hpush sizes).frame (R := Bypassed done) fun e _ e' h he => ?_).or
    ((hpush sizes').frame (R := fun e => e.reachable = true) fun e _ e' h he => ?_)
  · obtain ⟨hlabels, hreachable⟩ := labels_of_pushInt h
    rw [Bypassed, hreachable, info, hlabels]
    exact he
  · exact (labels_of_pushInt h).2.trans he

theorem works_placeDone {done : Label} (hdone : known done = some sizes') :
    Works Whole ctx (Forks ctx known vars next done sizes sizes') (place done) fun _ =>
      Balanced ctx known vars next sizes' := by
  refine .of_elementary (.place done) (fun _ => Forks.whole) ?_ (fun _ _ => Balanced.whole) ?_
  · rintro e u e' (⟨he, hreachable, hstate⟩ | ⟨he, hreachable⟩) h
    · rcases he.of_place hdone h with ⟨hnone, _⟩ | ⟨htrue, _⟩ | ⟨_, _, hbalanced⟩
      · exact absurd hnone hstate
      · rw [hreachable] at htrue
        cases htrue
      · exact hbalanced
    · rcases he.of_place hdone h with ⟨_, _, hbalanced⟩ | ⟨_, _, hbalanced⟩ | ⟨_, _, hbalanced⟩
      all_goals exact hbalanced
  · rintro e e' (⟨he, _⟩ | ⟨he, _⟩) h
    all_goals exact he.whole_of_fails_place h

/-- The value of a condition: one where it goes through, zero at the label of its jumps. Where
nothing jumps there, the code for zero is passed, and what counts is the jump behind the code for
one. -/
theorem carries_condition {jump : Label → Emit Unit} {dest : Destination}
    (hjump : ∀ (known : Expected) (l : Label), known l = some sizes →
      Carries ctx known vars next sizes (jump l) sizes)
    (hdest : dest.Expects known sizes) :
    Carries ctx known vars next sizes (condition jump dest) (dest.rest sizes 1) := by
  cases dest with
  | jumpIfFalse l => exact hjump known l hdest
  | value =>
    refine (works_newLabel sizes).bind fun whenFalse => .assume fun hfresh => ?_
    refine (works_newLabel (sizes ++ [1])).bind fun done => .assume fun hfresh' => ?_
    have hwhenFalse : Function.update known whenFalse (some sizes) whenFalse = some sizes :=
      Function.update_self ..
    have hne : whenFalse ≠ done := hfresh' whenFalse sizes hwhenFalse
    generalize hknown : Function.update (Function.update known whenFalse (some sizes)) done
      (some (sizes ++ [1])) = inner
    have hfalse : inner whenFalse = some sizes := by
      rw [← hknown, Function.update_of_ne hne, hwhenFalse]
    have hdone : inner done = some (sizes ++ [1]) := by
      rw [← hknown, Function.update_self]
    have houter : ∀ l m, known l = some m → inner l = some m := by
      intro l m hl
      have hstays : Function.update known whenFalse (some sizes) l = some m := by
        rw [Function.update_of_ne (hfresh l m hl), hl]
      rw [← hknown, Function.update_of_ne (hfresh' l m hstays), hstays]
    exact (hjump inner whenFalse hfalse).bind fun _ => (carries_pushInt 1).bind fun _ =>
      (works_goto hdone).bind fun _ => (works_placeFalse hfalse).bind fun _ =>
      works_zero.bind fun _ => (works_placeDone hdone).to_post fun _ _ he => he.forget houter

/-! ## Expressions -/

/-- What the code of an expression leaves: the slots of its value, whose type is known then. -/
def Leaves (ctx : MethodContext) (known : Expected) (vars : List NamedLocal) (next : Nat)
    (sizes : List Nat) (dest : Destination) (x : Expr) (e : Emitter) : Prop :=
  ∃ t, x.valueType? ctx.className ctx.params = some t ∧
    Balanced ctx known vars next (dest.rest sizes t.slotSize) e

theorem Leaves.of_fills {x : Expr} {n : Nat} {e : Emitter} (hfills : x.fills ctx n = true)
    (h : Leaves ctx known vars next sizes .value x e) :
    Balanced ctx known vars next (sizes ++ [n]) e := by
  obtain ⟨t, ht, he⟩ := h
  rw [Expr.fills, ht, Option.all_some, beq_iff_eq] at hfills
  exact hfills ▸ he

/-- The value on the stack goes to its destination. -/
theorem works_settle {dest : Destination} {x : Expr} {t : TypeName}
    (ht : x.valueType? ctx.className ctx.params = some t) (hdest : dest.Expects known sizes)
    (hint : dest ≠ .value → x.fills ctx 1 = true) :
    Works Whole ctx (Balanced ctx known vars next (sizes ++ [t.slotSize])) (settle dest)
      fun _ => Leaves ctx known vars next sizes dest x := by
  refine (carries_settle hdest fun h => ?_).to_post fun _ e he => ⟨t, ht, he⟩
  have hfills := hint h
  rwa [Expr.fills, ht, Option.all_some, beq_iff_eq] at hfills

/-- A value of a known type, and where it goes. -/
theorem Carries.settled {x : Emit Unit} {y : Expr} {dest : Destination} {t : TypeName}
    (hx : Carries ctx known vars next sizes' x (sizes ++ [t.slotSize]))
    (ht : y.valueType? ctx.className ctx.params = some t) (hdest : dest.Expects known sizes)
    (hint : dest ≠ .value → y.fills ctx 1 = true) :
    Works Whole ctx (Balanced ctx known vars next sizes') (do x; settle dest)
      fun _ => Leaves ctx known vars next sizes dest y :=
  hx.bind fun _ => works_settle ht hdest hint

theorem Carries.operand {x : Expr} {n : Nat} (hfills : x.fills ctx n = true)
    (hx : Works Whole ctx (Balanced ctx known vars next sizes) (expr .value x)
      fun _ => Leaves ctx known vars next sizes .value x) :
    Carries ctx known vars next sizes (expr .value x) (sizes ++ [n]) :=
  hx.to_post fun _ _ => Leaves.of_fills hfills

theorem works_nullJump (op : CompareOp) {l : Label} (hl : known l = some sizes) :
    Carries ctx known vars next (sizes ++ [1]) (nullJump op l) sizes :=
  carries_branch _ hl rfl

variable (ctx vars next)

mutual

/-- The code of an expression leaves the slots of its value above what was there. -/
theorem works_expr : (x : Expr) → (known : Expected) → (sizes : List Nat) → (dest : Destination) →
    x.isSlotted ctx (declarationsOf vars) = true → dest.Expects known sizes →
    (dest ≠ .value → x.fills ctx 1 = true) →
    Works Whole ctx (Balanced ctx known vars next sizes) (expr dest x)
      fun _ => Leaves ctx known vars next sizes dest x
  | .this, known, sizes, dest, hx, hdest, hint => by
    rw [Expr.isSlotted, beq_iff_eq] at hx
    rw [expr]
    exact (hx ▸ carries_loadThis).settled rfl hdest hint
  | .param index, known, sizes, dest, hx, hdest, hint => by
    rw [expr]
    refine .read_bind (fun _ => Balanced.whole) ?_
    split
    · next slot t hslot =>
      exact (carries_load t slot).settled (MethodContext.paramType?_of_paramSlot? hslot) hdest hint
    · exact .fail_bind fun _ => Balanced.whole
  | .localVar name type, known, sizes, dest, hx, hdest, hint => by
    rw [Expr.isSlotted, lookup_declarationsOf] at hx
    rw [expr]
    refine (works_findLocal name).bind fun l => .assume fun hl => ?_
    rw [hl, Option.map_some, Option.all_some, beq_iff_eq] at hx
    exact (hx ▸ carries_load l.type l.slot).settled rfl hdest hint
  | .null, known, sizes, dest, hx, hdest, hint => by
    rw [expr]
    have hpush : Carries ctx known vars next sizes (push .null)
        (sizes ++ [TypeName.null.slotSize]) := carries_push .null
    exact (carries_instruction _ _).bind fun _ => hpush.settled rfl hdest hint
  | .bool value, known, sizes, dest, hx, hdest, hint => by
    cases dest with
    | value =>
      rw [expr]
      exact (carries_pushInt _).to_post fun _ e he => ⟨.boolean, rfl, he⟩
    | jumpIfFalse l =>
      have hbranch : Carries ctx known vars next (sizes ++ []) (branch Opcode.goto l 0) sizes :=
        carries_branch _ hdest rfl
      rw [List.append_nil] at hbranch
      have hjump : Carries ctx known vars next sizes
          (if value then pure () else branch Opcode.goto l 0)
          sizes := .ite (fun _ => Carries.pure) fun _ => hbranch
      rw [expr]
      exact hjump.to_post fun _ e he => ⟨.boolean, rfl, he⟩
  | .int value, known, sizes, dest, hx, hdest, hint => by
    rw [expr]
    have hpush : Carries ctx known vars next sizes (pushInt value)
        (sizes ++ [TypeName.int.slotSize]) := carries_pushInt value
    exact hpush.settled rfl hdest hint
  | .str value, known, sizes, dest, hx, hdest, hint => by
    rw [expr]
    exact (carries_addConstants _).bind fun index => (carries_loadConstant index).bind fun _ =>
      (carries_pushType .string).settled rfl hdest hint
  | .getField target field, known, sizes, dest, hx, hdest, hint => by
    rw [Expr.isSlotted, Bool.and_eq_true] at hx
    rw [expr]
    exact (Carries.operand hx.2
        (works_expr target known sizes .value hx.1 trivial nofun)).bind fun _ =>
      (carries_addConstants _).bind fun _ => (carries_instruction _ _).bind fun _ =>
      (carries_pop rfl).bind fun _ => (carries_pushType field.type).settled rfl hdest hint
  | .getStatic field, known, sizes, dest, hx, hdest, hint => by
    rw [expr]
    exact (carries_addConstants _).bind fun _ => (carries_instruction _ _).bind fun _ =>
      (carries_pushType field.type).settled rfl hdest hint
  | .invoke kind method target args, known, sizes, dest, hx, hdest, hint => by
    rw [Expr.isSlotted, Bool.and_eq_true, Bool.or_eq_true, beq_iff_eq] at hx
    obtain ⟨htarget, hargs⟩ := hx
    have hcall : ∀ us, us.sum = (if kind = .static then 0 else 1) →
        Works Whole ctx (Balanced ctx known vars next (sizes ++ us)) (do
          checkCount method.params args
          exprs .value args
          call kind method
          settle dest) fun _ =>
            Leaves ctx known vars next sizes dest (.invoke kind method target args) := by
      intro us hus
      refine (works_checkCount _ _).bind fun _ => .assume fun hlength => ?_
      have hsum : (us ++ method.params.map (·.slotSize)).sum
          = totalSlots method.params + if kind = .static then 0 else 1 :=
        hus ▸ sum_append_slots us method.params
      refine (carries_exprs args _ known (sizes ++ us) hlength hargs).bind fun _ => ?_
      rw [List.append_assoc]
      exact (carries_call kind method hsum).settled rfl hdest hint
    rw [expr]
    by_cases hkind : kind = .static
    · have hnothing := hcall [] (by rw [if_pos hkind]; rfl)
      rw [List.append_nil] at hnothing
      rwa [if_neg (not_not.mpr hkind)]
    · rw [if_pos hkind]
      exact (carries_receiver method target known sizes (htarget.resolve_left hkind)).bind fun _ =>
        hcall [1] (by rw [if_neg hkind]; rfl)
  | .new type params args, known, sizes, dest, hx, hdest, hint => by
    rw [Expr.isSlotted, Bool.and_eq_true, beq_iff_eq] at hx
    obtain ⟨htype, hargs⟩ := hx
    rw [expr]
    refine (works_newObject type).bind fun ⟨index, fresh⟩ => .assume fun ⟨offset, hfresh⟩ => ?_
    obtain rfl : fresh = .uninitialized offset := hfresh
    refine (works_checkCount _ _).bind fun _ => .assume fun hlength => ?_
    have hsum := sum_append_slots [1] params
    refine (carries_exprs args _ known (sizes ++ [1] ++ [1]) hlength hargs).bind fun _ => ?_
    rw [List.append_assoc (sizes ++ [1])]
    have hmade : Carries ctx known vars next (sizes ++ [1])
        (replaceAll (.uninitialized offset) (.object index)) (sizes ++ [type.slotSize]) :=
      htype ▸ carries_replaceAll rfl nofun rfl
    exact (carries_callConstructor type params hsum).bind fun _ => hmade.settled rfl hdest hint
  | .newArray element items, known, sizes, dest, hx, hdest, hint => by
    rw [Expr.isSlotted] at hx
    rw [expr]
    have hfilled : Carries ctx known vars next (sizes ++ [1]) (elements element 0 items)
        (sizes ++ [element.arrayOf.slotSize]) :=
      (TypeName.slotSize_arrayOf element).symm ▸ carries_elements element items 0 known sizes hx
    exact (carries_pushInt _).bind fun _ => (carries_newArray element).bind fun _ =>
      hfilled.settled rfl hdest hint
  | .cast type value, known, sizes, dest, hx, hdest, hint => by
    rw [Expr.isSlotted, Bool.and_eq_true] at hx
    rw [expr]
    refine .ite (fun _ => .fail_bind fun _ => Balanced.whole) fun _ => ?_
    exact (Carries.operand hx.2
        (works_expr value known sizes .value hx.1 trivial nofun)).bind fun _ =>
      (carries_addConstants _).bind fun _ => (carries_instruction _ _).bind fun _ =>
      (carries_pop rfl).bind fun _ => (carries_pushType type).settled rfl hdest hint
  | .boxed value source, known, sizes, dest, hx, hdest, hint => by
    rw [Expr.isSlotted, Bool.and_eq_true] at hx
    rw [expr]
    cases hboxed : source.boxed? with
    | none => exact .fail_bind fun _ => Balanced.whole
    | some wrapper =>
      have htype : (Expr.boxed value source).valueType? ctx.className ctx.params = some wrapper :=
        hboxed
      have hcall : Carries ctx known vars next (sizes ++ [source.slotSize])
          (call .static { owner := wrapper, name := "valueOf", params := [source], ret := wrapper })
          (sizes ++ [wrapper.slotSize]) := carries_call .static _ rfl
      exact (Carries.operand hx.2 (works_expr value known sizes .value hx.1 trivial nofun)).bind
        fun _ => hcall.settled htype hdest hint
  | .unboxed value target, known, sizes, dest, hx, hdest, hint => by
    rw [Expr.isSlotted, Bool.and_eq_true] at hx
    rw [expr]
    cases target.boxed? with
    | none => exact .fail_bind fun _ => Balanced.whole
    | some wrapper =>
      exact (Carries.operand hx.2 (works_expr value known sizes .value hx.1 trivial nofun)).bind
        fun _ => (carries_call .virtual _ rfl).settled rfl hdest hint
  | .arith op lhs rhs, known, sizes, dest, hx, hdest, hint => by
    simp only [Expr.isSlotted, Bool.and_eq_true] at hx
    obtain ⟨⟨⟨hlhs, hlhs'⟩, hrhs⟩, hrhs'⟩ := hx
    have hpush : Carries ctx known vars next sizes (push .integer)
        (sizes ++ [TypeName.int.slotSize]) := carries_push .integer
    have hpop : Carries ctx known vars next (sizes ++ [1] ++ [1]) (pop 2) sizes := by
      rw [List.append_assoc]
      exact carries_pop rfl
    rw [expr_arith]
    exact (Carries.operand hlhs' (works_expr lhs known sizes .value hlhs trivial nofun)).bind
      fun _ => (Carries.operand hrhs' (works_expr rhs known _ .value hrhs trivial nofun)).bind
      fun _ => (carries_instruction _ _).bind fun _ => hpop.bind fun _ =>
      hpush.settled rfl hdest hint
  | .and items, known, sizes, dest, hx, hdest, hint => by
    rw [Expr.isSlotted] at hx
    rw [expr]
    exact (carries_condition (fun known l hl => carries_conjunction items known sizes l hl hx)
      hdest).to_post fun _ e he => ⟨.boolean, rfl, he⟩
  | .compare op lhs rhs, known, sizes, dest, hx, hdest, hint => by
    simp only [Expr.isSlotted, Bool.and_eq_true] at hx
    obtain ⟨⟨hlhs, hrhs⟩, hboth⟩ := hx
    have hright : ∀ (known : Expected) (sizes : List Nat) (t : TypeName),
        lhs.valueType? ctx.className ctx.params = some t →
        Carries ctx known vars next sizes (expr .value rhs) (sizes ++ [t.slotSize]) := by
      intro known sizes t ht
      rw [ht, Option.all_some] at hboth
      exact Carries.operand hboth (works_expr rhs known sizes .value hrhs trivial nofun)
    by_cases hr : rhs = .null
    · subst hr
      rw [expr_compare_null_right]
      refine (carries_condition (fun known l hl => ?_) hdest).to_post
        fun _ e he => ⟨.boolean, rfl, he⟩
      have hfills : lhs.fills ctx 1 = true := by
        rw [Expr.fills]
        cases hleft : lhs.valueType? ctx.className ctx.params with
        | none => rfl
        | some t =>
          rw [hleft, Option.all_some, Expr.fills, Expr.valueType?, Option.all_some,
            beq_iff_eq] at hboth
          rw [Option.all_some, beq_iff_eq, ← hboth]
          rfl
      exact (Carries.operand hfills (works_expr lhs known sizes .value hlhs trivial nofun)).bind
        fun _ => works_nullJump op hl
    · by_cases hl : lhs = .null
      · subst hl
        rw [expr_compare_null_left dest op hr]
        refine (carries_condition (fun known l hl => ?_) hdest).to_post
          fun _ e he => ⟨.boolean, rfl, he⟩
        exact (hright known sizes .null rfl).bind fun _ => works_nullJump op hl
      · rw [expr_compare dest op hl hr]
        refine (carries_condition (fun known l hl => ?_) hdest).to_post
          fun _ e he => ⟨.boolean, rfl, he⟩
        refine (works_typeOf lhs).bind fun t => .assume fun ht => ?_
        have hleft : Carries ctx known vars next sizes (expr .value lhs) (sizes ++ [t.slotSize]) :=
          Carries.operand (by rw [Expr.fills, ht, Option.all_some, beq_iff_eq])
            (works_expr lhs known sizes .value hlhs trivial nofun)
        exact hleft.bind fun _ => (hright known _ t ht).bind fun _ => carries_compareJump op t hl

theorem carries_exprs : (xs : List Expr) → (ns : List Nat) → (known : Expected) →
    (sizes : List Nat) → ns.length = xs.length →
    Expr.areSlotted ctx (declarationsOf vars) ns xs = true →
    Carries ctx known vars next sizes (exprs .value xs) (sizes ++ ns)
  | [], ns, known, sizes, hlength, hxs => by
    obtain rfl := List.length_eq_zero_iff.mp hlength
    rw [exprs, List.append_nil]
    exact .pure
  | x :: xs, [], known, sizes, hlength, hxs => by cases hlength
  | x :: xs, n :: ns, known, sizes, hlength, hxs => by
    simp only [Expr.areSlotted, Bool.and_eq_true] at hxs
    obtain ⟨⟨hx, hfills⟩, hrest⟩ := hxs
    have happend : sizes ++ n :: ns = sizes ++ [n] ++ ns := by simp
    rw [exprs, happend]
    exact (Carries.operand hfills (works_expr x known sizes .value hx trivial nofun)).bind fun _ =>
      carries_exprs xs ns known (sizes ++ [n]) (Nat.succ.inj hlength) hrest

theorem carries_conjunction : (xs : List Expr) → (known : Expected) → (sizes : List Nat) →
    (l : Label) → known l = some sizes →
    Expr.areSlotted ctx (declarationsOf vars) (.replicate xs.length 1) xs = true →
    Carries ctx known vars next sizes (exprs (.jumpIfFalse l) xs) sizes
  | [], known, sizes, l, hl, hxs => by
    rw [exprs]
    exact .pure
  | x :: xs, known, sizes, l, hl, hxs => by
    simp only [List.length_cons, List.replicate_succ, Expr.areSlotted, Bool.and_eq_true] at hxs
    obtain ⟨⟨hx, hfills⟩, hrest⟩ := hxs
    have hfirst : Carries ctx known vars next sizes (expr (.jumpIfFalse l) x) sizes :=
      (works_expr x known sizes (.jumpIfFalse l) hx hl fun _ => hfills).to_post
        fun _ _ ⟨_, _, he⟩ => he
    rw [exprs]
    exact hfirst.bind fun _ => carries_conjunction xs known sizes l hl hrest

theorem carries_receiver (method : MethodRef) : (target : Option Expr) → (known : Expected) →
    (sizes : List Nat) → Expr.isSlottedReceiver ctx (declarationsOf vars) target = true →
    Carries ctx known vars next sizes (receiver method target) (sizes ++ [1])
  | some x, known, sizes, hx => by
    rw [Expr.isSlottedReceiver, Bool.and_eq_true] at hx
    rw [receiver]
    exact Carries.operand hx.2 (works_expr x known sizes .value hx.1 trivial nofun)
  | none, known, sizes, hx => by
    rw [receiver]
    exact .fail

/-- An array stays on the stack while its elements are stored. -/
theorem carries_elements (element : TypeName) : (xs : List Expr) → (index : Nat) →
    (known : Expected) → (sizes : List Nat) →
    Expr.areSlotted ctx (declarationsOf vars) (.replicate xs.length element.slotSize) xs = true →
    Carries ctx known vars next (sizes ++ [1]) (elements element index xs) (sizes ++ [1])
  | [], index, known, sizes, hxs => by
    rw [elements]
    exact .pure
  | x :: xs, index, known, sizes, hxs => by
    simp only [List.length_cons, List.replicate_succ, Expr.areSlotted, Bool.and_eq_true] at hxs
    obtain ⟨⟨hx, hfills⟩, hrest⟩ := hxs
    have harray : Carries ctx known vars next (sizes ++ [1]) (pushType element.arrayOf)
        (sizes ++ [1] ++ [1]) :=
      TypeName.slotSize_arrayOf element ▸ carries_pushType element.arrayOf
    have hpop : Carries ctx known vars next (sizes ++ [1] ++ [1] ++ [1] ++ [element.slotSize])
        (pop (2 + element.slotSize)) (sizes ++ [1]) := by
      have happend : sizes ++ [1] ++ [1] ++ [1] ++ [element.slotSize]
          = sizes ++ [1] ++ [1, 1, element.slotSize] := by simp
      rw [happend]
      exact carries_pop (by simp; omega)
    rw [elements]
    exact (carries_instruction _ _).bind fun _ => harray.bind fun _ =>
      (carries_pushInt _).bind fun _ =>
      (Carries.operand hfills (works_expr x known _ .value hx trivial nofun)).bind fun _ =>
      (carries_instruction _ _).bind fun _ => hpop.bind fun _ =>
      carries_elements element xs (index + 1) known sizes hrest

end

end

/-! ## Statements -/

/-- Between two statements: the stack is the one that the block started with, and the variables are
those of the scope. -/
def Settled (ctx : MethodContext) (known : Expected) (sizes : List Nat) (scope : Declarations)
    (e : Emitter) : Prop :=
  ∃ vars next, declarationsOf vars = scope ∧ Allotted ctx vars next ∧
    Balanced ctx known vars next sizes e

section

variable {ctx : MethodContext} {known : Expected} {vars : List NamedLocal} {next : Nat}
  {sizes : List Nat} {scope : Declarations}

theorem Settled.whole {e : Emitter} (h : Settled ctx known sizes scope e) : e.Whole := by
  obtain ⟨_, _, _, _, he⟩ := h
  exact he.whole

theorem Settled.forget {inner : Expected} {e : Emitter} (h : Settled ctx inner sizes scope e)
    (hknown : ∀ l m, known l = some m → inner l = some m) : Settled ctx known sizes scope e := by
  obtain ⟨vars, next, hscope, hvars, he⟩ := h
  exact ⟨vars, next, hscope, hvars, he.forget hknown⟩

/-- What holds for all variables of a scope holds for the scope. -/
theorem works_of_vars {α : Type} {x : Emit α} {post : α → Emitter → Prop}
    (h : ∀ vars next, declarationsOf vars = scope → Allotted ctx vars next →
      Works Whole ctx (Balanced ctx known vars next sizes) x post) :
    Works Whole ctx (Settled ctx known sizes scope) x post :=
  fun e ⟨vars, next, hscope, hvars, he⟩ => h vars next hscope hvars e he

theorem Carries.to_settled {α : Type} {x : Emit α} {sizes' : List Nat}
    (hscope : declarationsOf vars = scope) (hvars : Allotted ctx vars next)
    (h : Carries ctx known vars next sizes' x sizes) :
    Works Whole ctx (Balanced ctx known vars next sizes') x
      fun _ => Settled ctx known sizes scope :=
  h.to_post fun _ _ he => ⟨vars, next, hscope, hvars, he⟩

theorem works_checkReachable (s : Stmt) :
    Works Whole ctx (Settled ctx known sizes scope) (checkReachable s)
      fun _ => Settled ctx known sizes scope :=
  .get_bind (fun _ => Settled.whole) fun _ _ =>
    .ite (fun _ => .fail fun _ => Settled.whole) fun _ =>
      (Works.pure fun _ => Settled.whole).to_post fun _ _ h => h.2

/-- A value is stored in a variable of its type. -/
theorem carries_store (hvars : Allotted ctx vars next) {l : NamedLocal} (hl : l ∈ vars) :
    Carries ctx known vars next (sizes ++ [l.type.slotSize]) (store l.type l.slot) sizes := by
  have hvoid := (hvars.within l hl).2.2
  exact (carries_pop (by simp)).bind fun _ => (carries_slotInstruction _ _ _).bind fun _ =>
    (works_verificationType hvoid).bind fun vt => .assume fun hvt => carries_setLocal hvars hl hvt

mutual

/-- The code of a statement leaves the stack as it was, with the variables that it declares. -/
theorem works_stmt : (s : Stmt) → (known : Expected) → (sizes : List Nat) →
    (scope : Declarations) → s.isSlotted ctx scope = true →
    Works Whole ctx (Settled ctx known sizes scope) (stmt s)
      fun _ => Settled ctx known sizes (s.declarations ++ scope)
  | .setField target field value, known, sizes, scope, hs => by
    simp only [Stmt.isSlotted, Bool.and_eq_true] at hs
    obtain ⟨⟨⟨htarget, htarget'⟩, hvalue⟩, hvalue'⟩ := hs
    refine works_of_vars fun vars next hscope hvars => ?_
    subst hscope
    rw [stmt]
    refine Carries.to_settled rfl hvars ?_
    have hpop : Carries ctx known vars next (sizes ++ [1] ++ [field.type.slotSize])
        (pop (1 + field.type.slotSize)) sizes := by
      rw [List.append_assoc]
      exact carries_pop (by simp)
    exact (Carries.operand htarget'
        (works_expr ctx vars next target known sizes .value htarget trivial nofun)).bind fun _ =>
      (Carries.operand hvalue'
        (works_expr ctx vars next value known _ .value hvalue trivial nofun)).bind fun _ =>
      (carries_addConstants _).bind fun _ => (carries_instruction _ _).bind fun _ => hpop
  | .declareLocal name type value, known, sizes, scope, hs => by
    simp only [Stmt.isSlotted, Bool.and_eq_true, Bool.not_eq_true'] at hs
    obtain ⟨⟨htype, hvalue⟩, hvalue'⟩ := hs
    refine works_of_vars fun vars next hscope hvars => ?_
    subst hscope
    rw [stmt]
    refine (Carries.operand hvalue'
      (works_expr ctx vars next value known sizes .value hvalue trivial nofun)).bind fun _ => ?_
    refine (works_declare name type).bind fun slot => .assume fun hslot => ?_
    subst hslot
    have hvars' := hvars.declare name htype
    exact (carries_store hvars' List.mem_cons_self).to_settled rfl hvars'
  | .setLocal name value, known, sizes, scope, hs => by
    rw [Stmt.isSlotted, Bool.and_eq_true] at hs
    obtain ⟨hvalue, hname⟩ := hs
    refine works_of_vars fun vars next hscope hvars => ?_
    subst hscope
    rw [lookup_declarationsOf] at hname
    rw [stmt]
    refine Carries.to_settled rfl hvars ?_
    refine (works_findLocal name).bind fun l => .assume fun hl => ?_
    rw [hl, Option.map_some, Option.all_some] at hname
    exact (Carries.operand hname
        (works_expr ctx vars next value known sizes .value hvalue trivial nofun)).bind fun _ =>
      carries_store hvars (List.mem_of_find?_eq_some hl)
  | .expr value, known, sizes, scope, hs => by
    rw [Stmt.isSlotted] at hs
    refine works_of_vars fun vars next hscope hvars => ?_
    subst hscope
    rw [stmt]
    refine Carries.to_settled rfl hvars ?_
    refine (works_expr ctx vars next value known sizes .value hs trivial nofun).bind fun _ =>
      .of_exists fun t => .assume fun ht => (works_typeOf value).bind fun t' => .assume
        fun ht' => ?_
    obtain rfl := Option.some.inj (ht.symm.trans ht')
    exact carries_dropValue t
  | .ifThen cond body, known, sizes, scope, hs => by
    simp only [Stmt.isSlotted, Bool.and_eq_true] at hs
    obtain ⟨⟨hcond, hcond'⟩, hbody⟩ := hs
    refine works_of_vars fun vars next hscope hvars => ?_
    subst hscope
    rw [stmt]
    refine (works_newLabel sizes).bind fun skip => .assume fun hfresh => ?_
    have hskip : Function.update known skip (some sizes) skip = some sizes :=
      Function.update_self ..
    have houter : ∀ l m, known l = some m → Function.update known skip (some sizes) l = some m :=
      fun l m hl => by rw [Function.update_of_ne (hfresh l m hl), hl]
    have hjump : Carries ctx (Function.update known skip (some sizes)) vars next sizes
        (expr (.jumpIfFalse skip) cond) sizes :=
      (works_expr ctx vars next cond _ sizes (.jumpIfFalse skip) hcond hskip
        fun _ => hcond').to_post fun _ _ ⟨_, _, he⟩ => he
    exact (hjump.to_settled rfl hvars).bind fun _ =>
      (works_stmts body _ sizes _ hbody).bind fun _ =>
      works_of_vars fun vars' next' hscope' hvars' =>
      ((carries_place hskip).to_settled hscope' hvars').to_post fun _ _ h => h.forget houter
  | .ret none, known, sizes, scope, hs => by
    refine works_of_vars fun vars next hscope hvars => ?_
    subst hscope
    rw [stmt]
    refine Carries.to_settled rfl hvars ?_
    refine .read_bind (fun _ => Balanced.whole) ?_
    refine .ite (fun _ => .fail_bind fun _ => Balanced.whole) fun _ => ?_
    exact (carries_instruction _ _).bind fun _ => carries_endOfFlow
  | .ret (some value), known, sizes, scope, hs => by
    rw [Stmt.isSlotted, Bool.and_eq_true, Bool.or_eq_true] at hs
    obtain ⟨hvalue, hvalue'⟩ := hs
    refine works_of_vars fun vars next hscope hvars => ?_
    subst hscope
    rw [stmt]
    refine Carries.to_settled rfl hvars ?_
    refine .read_bind (fun _ => Balanced.whole) ?_
    refine .ite (fun _ => .fail_bind fun _ => Balanced.whole) fun hret => ?_
    exact (Carries.operand (hvalue'.resolve_left hret)
        (works_expr ctx vars next value known sizes .value hvalue trivial nofun)).bind fun _ =>
      (carries_instruction _ _).bind fun _ => (carries_pop (by simp)).bind fun _ =>
      carries_endOfFlow
  | .throw value, known, sizes, scope, hs => by
    rw [Stmt.isSlotted, Bool.and_eq_true] at hs
    refine works_of_vars fun vars next hscope hvars => ?_
    subst hscope
    rw [stmt]
    refine Carries.to_settled rfl hvars ?_
    exact (Carries.operand hs.2
        (works_expr ctx vars next value known sizes .value hs.1 trivial nofun)).bind fun _ =>
      (carries_instruction _ _).bind fun _ => (carries_pop rfl).bind fun _ => carries_endOfFlow
  | .superInit owner params args, known, sizes, scope, hs => by
    rw [Stmt.isSlotted] at hs
    refine works_of_vars fun vars next hscope hvars => ?_
    subst hscope
    rw [stmt]
    refine Carries.to_settled rfl hvars ?_
    refine carries_loadThis.bind fun _ => (works_checkCount _ _).bind fun _ => .assume
      fun hlength => ?_
    have hsum := sum_append_slots [1] params
    refine (carries_exprs ctx vars next args _ known (sizes ++ [1]) hlength hs).bind fun _ => ?_
    rw [List.append_assoc]
    exact (carries_callConstructor owner params hsum).bind fun _ =>
      .read_bind (fun _ => Balanced.whole) <| (carries_addConstants _).bind fun index =>
      carries_replaceAll rfl nofun rfl

theorem works_stmts : (body : List Stmt) → (known : Expected) → (sizes : List Nat) →
    (scope : Declarations) → Stmt.areSlotted ctx scope body = true →
    Works Whole ctx (Settled ctx known sizes scope) (stmts body)
      fun _ => Settled ctx known sizes (Stmt.allDeclarations body ++ scope)
  | [], known, sizes, scope, hbody => by
    rw [stmts]
    exact (Works.pure fun _ => Settled.whole).to_post fun _ _ h => h.2
  | s :: rest, known, sizes, scope, hbody => by
    rw [Stmt.areSlotted, Bool.and_eq_true] at hbody
    rw [stmts, Stmt.allDeclarations, List.append_assoc]
    exact (works_checkReachable s).bind fun _ => (works_stmt s known sizes scope hbody.1).bind
      fun _ => works_stmts rest known sizes _ hbody.2

end

end

/-! ## Bodies -/

section

variable {ctx : MethodContext} {scope : Declarations} {body : List Stmt}

/-- At the start of a method the parameters are whole, and variables begin behind them. -/
theorem settled_start (pool : ConstantPool) (hparams : ∀ t ∈ ctx.params, t.isVoid = false)
    (hfit : ctx.entrySize ≤ 65535) :
    Settled ctx (fun _ => none) [] [] (start ctx pool) := by
  obtain ⟨receiver, vts, hstarts⟩ := exists_starts ctx pool
  have hlength : (start ctx pool).entry.length = ctx.entrySize :=
    MethodContext.length_entry hparams pool
  have hnext : (start ctx pool).nextLocal = ctx.entrySize :=
    (nextLocal_start (hlength ▸ hfit)).trans hlength
  have hpaired : Paired (start ctx pool).slots.locals := hstarts.locals_eq_flat ▸ paired_flat _
  have hlaid := hstarts.laid hparams hnext rfl
  have hentry : ctx.receiverSlots ≤ ctx.entrySize := Nat.le_add_right _ _
  have hnone : ∀ l, ((start ctx pool).info l).state? = none := fun _ => rfl
  refine ⟨[], ctx.entrySize, rfl, ⟨.nil, nofun, hentry⟩, ?_⟩
  exact
    { named := rfl
      nextLocal := hnext
      locals :=
        { paired := hpaired
          wide := fun j u hj hwide => ⟨hnext ▸ (hlaid.wide j u hj hwide).1, nofun⟩
          receiver := fun hstatic u hu => by
            rw [(hstarts.getElem?_zero hstatic).1] at hu
            rcases hstarts.receiver with ⟨htrue, _⟩ | ⟨_, _, rfl⟩ | ⟨_, _, _, rfl⟩
            · rw [hstatic] at htrue
              cases htrue
            · obtain rfl := Option.some.inj hu
              rfl
            · obtain rfl := Option.some.inj hu
              rfl }
      stack := Sized.nil
      labels := fun l s hs => nomatch (hnone l).symm.trans hs
      known := nofun
      frames := nofun
      entry := hpaired }

theorem works_endMethod :
    Works Whole ctx (Settled ctx (fun _ => none) [] scope) endMethod fun _ => Whole := by
  refine .get_bind (fun _ => Settled.whole) fun s _ => .ite (fun _ => ?_) fun _ => ?_
  · refine .read_bind (fun _ => Settled.whole) ?_
    refine .ite (fun _ => .fail_bind fun _ => Settled.whole) fun _ => ?_
    refine works_of_vars fun vars next _ _ => ?_
    exact (carries_instruction _ _).bind fun _ => carries_endOfFlow.to_post fun _ _ h => h.whole
  · exact (Works.pure fun _ => Settled.whole).to_post fun _ _ h => h.2.whole

/-- A wide variable that is set again on one of two ways. -/
def gaugeBody : List Stmt :=
  [.declareLocal "level" ⟨"double"⟩ (.param 1),
    .ifThen (.compare .eq (.param 2) (.int 1)) [.setLocal "level" (.param 1)]]

/-- The frame behind the branch lists the second variable once, while it fills two slots. -/
example : (stateAfter gauge (do stmts gaugeBody; endMethod) (start gauge .empty)).frames
    = [(9, ⟨[.double, .top, .integer, .double, .top], []⟩)] := by decide +kernel

end

end ClassSynth
