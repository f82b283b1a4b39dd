import ClassSynth.Proofs.Acceptance.Expressions

/-!
# Conditions that are lowered

Where nothing else lies on the stack, conditions may jump: `Expr.decides` says which ones have
operands with the slots that they should have, and lowering them succeeds (`decides_expr`). All
states that meet at a label have the same stack, so merging them does not fail.
-/

namespace ClassSynth

section

variable (ctx : MethodContext) (scope : TypeScope)

mutual

/-- Is the expression a condition with operands of the slots that they should have? Constants are
left out, since they do not jump in all cases. -/
def Expr.decides : Expr → Bool
  | .bool _ => false
  | .and items => !items.isEmpty && Expr.allDecide items
  | .compare _ lhs .null => lhs.slots? ctx scope == some 1
  | .compare _ .null rhs => rhs.slots? ctx scope == some 1
  | .compare _ lhs rhs =>
    (lhs.valueType? ctx.className ctx.params).any fun t =>
      lhs.slots? ctx scope == some t.slotSize && rhs.slots? ctx scope == some t.slotSize
  | x => x.slots? ctx scope == some 1

def Expr.allDecide : List Expr → Bool
  | [] => true
  | x :: xs => x.decides && Expr.allDecide xs

end

/-- The slots of the value of an expression or of a condition. -/
def Expr.yields? (x : Expr) : Option Nat :=
  match x with
  | .and _ | .compare .. => if x.decides ctx scope then some 1 else none
  | x => x.slots? ctx scope

end

/-! ## States at labels -/

theorem TypeName.slotSize_of_isIntLike {t : TypeName} (h : t.isIntLike = true) :
    t.slotSize = 1 := by
  obtain ⟨p, hp, hint⟩ := (Option.any_eq_true _ _).mp h
  have htext := Primitive.keyword_of_ofKeyword? hp
  have hvoid : t.isVoid = false := by
    rw [isVoid, ← htext]
    cases p <;> rfl
  rw [slotSize, hvoid, isWide, hp]
  cases p <;> first | rfl | cases hint

namespace SlotState

/-- The state of a point with a given stack. -/
structure At (ctx : MethodContext) (stack : List VerificationType) (s : SlotState) : Prop where
  stack : s.stack = stack
  receiver : ctx.isStatic = false → (s.locals.headD .top).isWide = false

variable {ctx : MethodContext} {stack : List VerificationType} {s t : SlotState}

/-- States with the same stack can be merged. -/
theorem At.exists_merge (hs : s.At ctx stack) (ht : t.At ctx stack) :
    ∃ joint, s.merge t = .ok joint ∧ joint.At ctx stack := by
  refine ⟨_, merge_eq (hs.stack.trans ht.stack.symm), hs.stack, fun hstatic => ?_⟩
  have hreceiver := hs.receiver hstatic
  cases hlocals : s.locals with
  | nil => rfl
  | cons a as =>
    rw [hlocals] at hreceiver
    cases t.locals with
    | nil => rfl
    | cons b bs =>
      rw [List.zipWith_cons_cons, List.headD_cons, mergeLocal]
      split_ifs
      · exact hreceiver
      · rfl

end SlotState

namespace Emitter

/-- A label that is jumped to with a given stack only. -/
structure Expects (ctx : MethodContext) (stack : List VerificationType) (l : Label) (e : Emitter) :
    Prop where
  known : l < e.labels.size
  state : ∀ s, (e.info l).state? = some s → s.At ctx stack

/-- Old labels are left alone, and new ones are placed. -/
structure Closes (e e' : Emitter) : Prop where
  size : e.labels.size ≤ e'.labels.size
  old : ∀ m < e.labels.size, e'.info m = e.info m
  new : ∀ m, e.labels.size ≤ m → m < e'.labels.size → (e'.info m).placement? ≠ none

/-- Code that jumps to a label with an empty stack, and goes on behind the jumps. -/
structure Jumps (ctx : MethodContext) (scope : TypeScope) (l : Label) (e e' : Emitter) : Prop
    extends SameLocals e e' where
  poised : Poised ctx scope ⟨0, 0⟩ e'
  reachable : e'.reachable = e.reachable
  size : e'.labels.size = e.labels.size
  others : ∀ m, m ≠ l → e'.info m = e.info m
  expects : Expects ctx [] l e'
  jumped : (e'.info l).state? ≠ none

variable {ctx : MethodContext} {scope : TypeScope} {e e₁ e₂ : Emitter} {l : Label}

theorem Poised.at_nil {c : Nat} (h : e.Poised ctx scope ⟨0, c⟩) : e.slots.At ctx [] :=
  ⟨List.eq_nil_of_length_eq_zero h.stack, h.receiver⟩

theorem info_of_labels (h : e₂.labels = e₁.labels) (l : Label) : e₂.info l = e₁.info l := by
  rw [Emitter.info, h, Emitter.info]

theorem Straight.info (h : Straight e₁ e₂) (l : Label) : e₂.info l = e₁.info l :=
  info_of_labels h.labels l

theorem Closes.of_labels (h : e₂.labels = e₁.labels) : Closes e₁ e₂ where
  size := Nat.le_of_eq (congrArg Array.size h).symm
  old := fun m _ => info_of_labels h m
  new := fun _ hm hlt => absurd (h ▸ hlt) (Nat.not_lt_of_le hm)

theorem Expects.straight {stack : List VerificationType} (hl : Expects ctx stack l e₁)
    (h : Straight e₁ e₂) : Expects ctx stack l e₂ :=
  ⟨h.labels ▸ hl.known, h.info l ▸ hl.state⟩

theorem Closes.trans {e₃ : Emitter} (h : Closes e₁ e₂) (h' : Closes e₂ e₃) : Closes e₁ e₃ where
  size := Nat.le_trans h.size h'.size
  old := fun m hm => (h'.old m (Nat.lt_of_lt_of_le hm h.size)).trans (h.old m hm)
  new := fun m hm hlt => by
    by_cases hmiddle : m < e₂.labels.size
    · rw [h'.old m hmiddle]
      exact h.new m hm hmiddle
    · exact h'.new m (Nat.le_of_not_lt hmiddle) hlt

theorem Jumps.trans {e₃ : Emitter} (h : Jumps ctx scope l e₁ e₂) (h' : Jumps ctx scope l e₂ e₃) :
    Jumps ctx scope l e₁ e₃ where
  toSameLocals := h.toSameLocals.trans h'.toSameLocals
  poised := h'.poised
  reachable := h'.reachable.trans h.reachable
  size := h'.size.trans h.size
  others := fun m hm => (h'.others m hm).trans (h.others m hm)
  expects := h'.expects
  jumped := h'.jumped

theorem Straight.jumps (h : Straight e₁ e₂) {e₃ : Emitter} (h' : Jumps ctx scope l e₂ e₃) :
    Jumps ctx scope l e₁ e₃ where
  toSameLocals := h.toSameLocals.trans h'.toSameLocals
  poised := h'.poised
  reachable := h'.reachable.trans h.reachable
  size := h'.size.trans (congrArg Array.size h.labels)
  others := fun m hm => (h'.others m hm).trans (h.info m)
  expects := h'.expects
  jumped := h'.jumped

theorem info_jumpTo_of_ne {opcode : UInt8} {s : SlotState} {m : Label} (h : m ≠ l) :
    (Emit.jumpTo e opcode l s).info m = e.info m := by
  rw [info, Emit.jumpTo, getD_setIfInBounds, if_neg (fun h' => h h'.1.symm), info]

end Emitter

namespace Emit

open Emitter

variable {α β : Type} {ctx : MethodContext} {scope : TypeScope} {e e' : Emitter} {l : Label}
  {stack : List VerificationType} {k : Nat}

/-- A jump succeeds if it comes with the stack that the label expects. -/
theorem exists_branch {s : SlotState} (hpop : e.slots.pop? k = some s) (hs : s.At ctx stack)
    (hl : Expects ctx stack l e) (opcode : UInt8) :
    ∃ joint : SlotState, joint.At ctx stack ∧
      Runs (branch opcode l k) ctx e () (jumpTo { e with slots := s } opcode l joint) := by
  have hjoined : ∃ joint, joined (e.info l) s = .ok joint ∧ joint.At ctx stack := by
    rw [joined]
    cases hstate : (e.info l).state? with
    | none => exact ⟨s, rfl, hs⟩
    | some jumped => exact (hl.state jumped hstate).exists_merge hs
  obtain ⟨joint, hjoint, hat⟩ := hjoined
  exact ⟨joint, hat, runs_branch.mpr ⟨s, joint, hpop, hjoint, rfl⟩⟩

/-- A label that is jumped to can be placed where the stack is the one that it expects. -/
theorem exists_place {jumped : SlotState} (hstate : (e.info l).state? = some jumped)
    (hjumped : jumped.At ctx stack) (hslots : e.reachable = true → e.slots.At ctx stack) :
    ∃ s : SlotState, s.At ctx stack ∧ Runs (place l) ctx e () (joinAt e l s) := by
  have harriving : ∃ s, arriving e jumped = .ok s ∧ s.At ctx stack := by
    rw [arriving]
    split_ifs with hreachable
    · exact (hslots hreachable).exists_merge hjumped
    · exact ⟨jumped, rfl, hjumped⟩
  obtain ⟨s, hs, hat⟩ := harriving
  exact ⟨s, hat, runs_place.mpr (.inr ⟨jumped, s, hstate, hs, rfl⟩)⟩

/-- The step takes all that lies on the stack, and jumps or goes on. -/
def Decides (ctx : MethodContext) (scope : TypeScope) (step : Emit α) (h : Height) (l : Label) :
    Prop :=
  ∀ e, Poised ctx scope h e → Expects ctx [] l e →
    ∃ r e', Runs step ctx e r e' ∧ Jumps ctx scope l e e'

namespace Decides

variable {x : Emit α} {a b : Height}

/-- A condition behind code that succeeds. -/
theorem after {f : α → Emit β} (hx : Completes ctx scope x a b)
    (hf : ∀ r, Decides ctx scope (f r) b l) : Decides ctx scope (x >>= f) a l := by
  intro e he hl
  obtain ⟨r, e₁, hrun₁, he₁, hstraight⟩ := hx 0 e (a.above_zero.symm ▸ he)
  obtain ⟨s, e₂, hrun₂, hjumps⟩ := hf r e₁ (b.above_zero ▸ he₁) (hl.straight hstraight)
  exact ⟨s, e₂, runs_bind.mpr ⟨r, e₁, hrun₁, hrun₂⟩, hstraight.jumps hjumps⟩

theorem bind {f : α → Emit β} (hx : Decides ctx scope x a l)
    (hf : ∀ r, Decides ctx scope (f r) ⟨0, 0⟩ l) : Decides ctx scope (x >>= f) a l := by
  intro e he hl
  obtain ⟨r, e₁, hrun₁, hjumps₁⟩ := hx e he hl
  obtain ⟨s, e₂, hrun₂, hjumps₂⟩ := hf r e₁ hjumps₁.poised hjumps₁.expects
  exact ⟨s, e₂, runs_bind.mpr ⟨r, e₁, hrun₁, hrun₂⟩, hjumps₁.trans hjumps₂⟩

theorem typeOf_bind {y : Expr} {t : TypeName} {f : TypeName → Emit β}
    (ht : y.valueType? ctx.className ctx.params = some t) (hf : Decides ctx scope (f t) a l) :
    Decides ctx scope (typeOf y >>= f) a l := by
  intro e he hl
  obtain ⟨r, e', hrun, hjumps⟩ := hf e he hl
  exact ⟨r, e', runs_bind.mpr ⟨t, e, runs_typeOf.mpr ⟨ht, rfl⟩, hrun⟩, hjumps⟩

end Decides

theorem decides_branch {opcode : UInt8} {c : Nat} (hgoto : opcode ≠ Opcode.goto) :
    Decides ctx scope (branch opcode l k) ⟨k, c⟩ l := by
  intro e he hl
  let below : Emitter := { e with slots := { e.slots with stack := [] } }
  have hpop : e.slots.pop? k = some below.slots := by
    refine pop?_eq_some.mpr ⟨Nat.le_of_eq he.stack.symm, ?_⟩
    rw [he.stack, Nat.sub_self, List.take_zero]
  obtain ⟨joint, hjoint, hrun⟩ := exists_branch hpop ⟨rfl, he.receiver⟩ hl opcode
  have hpc : e.pc < (below.append ⟨opcode, .branch l⟩).pc := Ordered.pc_lt_append _ _
  have hmax := he.maxStack
  have hstate := state_jumpTo below opcode joint hl.known
  refine ⟨(), _, hrun, ⟨rfl, rfl, rfl⟩, ⟨rfl, Nat.zero_le _, ?_, he.receiver, he.named⟩, ?_, ?_,
    fun m hm => info_jumpTo_of_ne hm, ⟨?_, fun s hs => ?_⟩, ?_⟩
  · change e.maxStack ≤ 2 * (below.append _).pc
    omega
  · simp [jumpTo, hgoto]
  · simp [jumpTo]
  · simpa [jumpTo] using hl.known
  · obtain rfl := Option.some.inj (hstate.symm.trans hs)
    exact hjoint
  · rw [hstate]
    exact Option.some_ne_none _

theorem decides_nullJump (op : CompareOp) : Decides ctx scope (nullJump op l) ⟨0 + 1, 0⟩ l := by
  cases op <;> exact decides_branch (by decide)

theorem decides_compareJump (op : CompareOp) (t : TypeName) :
    Decides ctx scope (compareJump op t l) ⟨0 + t.slotSize + t.slotSize, 0⟩ l := by
  unfold compareJump
  by_cases hreference : t.isReference = true
  · rw [if_pos hreference, TypeName.slotSize_of_isReference hreference]
    cases op <;> exact decides_branch (by decide)
  rw [if_neg hreference]
  by_cases hint : t.isIntLike = true
  · rw [if_pos hint, TypeName.slotSize_of_isIntLike hint]
    cases op <;> exact decides_branch (by decide)
  rw [if_neg hint]
  have hslots : 0 + t.slotSize + t.slotSize = 0 + 2 * t.slotSize := by omega
  rw [hslots]
  refine .after completes_instruction fun _ => .after (completes_pop _) fun _ =>
    .after ((completes_pushOne (c := 0) rfl).spend (by omega) (Nat.le_refl _)) fun _ => ?_
  cases op <;> exact decides_branch (by decide)

/-- An expression that is lowered without jumps is tested for zero, unless it is constant. -/
theorem expr_jumpIfFalse {x : Expr} (h : x.slots? ctx scope ≠ none) (hbool : ∀ b, x ≠ .bool b) :
    expr (.jumpIfFalse l) x = (do expr .value x; branch Opcode.ifeq l 1) := by
  cases x
  case bool b => exact absurd rfl (hbool b)
  case and | compare => exact absurd (by rw [Expr.slots?]) h
  case arith => simp only [expr_arith, settle, bind_assoc, pure_bind]
  case param index =>
    simp only [expr, settle, bind_assoc]
    refine bind_congr fun method => ?_
    cases method.paramSlot? index <;> simp only [bind_assoc, pure_bind]
  case boxed value type | unboxed value type =>
    simp only [expr, settle]
    cases type.boxed? <;> simp only [bind_assoc, pure_bind]
  case invoke | cast =>
    simp only [expr, settle]
    split_ifs <;> simp only [bind_assoc, pure_bind]
  all_goals simp only [expr, settle, bind_assoc, pure_bind]

theorem decides_tested {x : Expr} (h : x.slots? ctx scope = some 1) (hbool : ∀ b, x ≠ .bool b)
    (l : Label) : Decides ctx scope (expr (.jumpIfFalse l) x) ⟨0, 0⟩ l := by
  rw [expr_jumpIfFalse (by rw [h]; exact Option.some_ne_none _) hbool]
  exact .after (completes_expr x h 0) fun _ => decides_branch (by decide)

mutual

/-- Lowering a condition succeeds where nothing lies on the stack. -/
theorem decides_expr : (x : Expr) → x.decides ctx scope = true → (l : Label) →
    Decides ctx scope (expr (.jumpIfFalse l) x) ⟨0, 0⟩ l
  | .and items, h, l => by
    rw [Expr.decides, Bool.and_eq_true, Bool.not_eq_true', List.isEmpty_eq_false_iff] at h
    rw [expr]
    exact decides_exprs items h.1 h.2 l
  | .compare op lhs rhs, h, l => by
    by_cases hrhs : rhs = .null
    · subst hrhs
      rw [Expr.decides, beq_iff_eq] at h
      rw [expr_compare_null_right]
      exact .after (completes_expr lhs h 0) fun _ => decides_nullJump op
    by_cases hlhs : lhs = .null
    · subst hlhs
      rw [Expr.decides, beq_iff_eq] at h
      · rw [expr_compare_null_left _ op hrhs]
        exact .after (completes_expr rhs h 0) fun _ => decides_nullJump op
      · exact hrhs
    rw [Expr.decides, Option.any_eq_true] at h
    · obtain ⟨t, ht, h⟩ := h
      rw [Bool.and_eq_true, beq_iff_eq, beq_iff_eq] at h
      rw [expr_compare _ op hlhs hrhs]
      exact .typeOf_bind ht (.after (completes_expr lhs h.1 0) fun _ =>
        .after (completes_expr rhs h.2 _) fun _ => decides_compareJump op t)
    · exact hrhs
    · exact hlhs
  | .bool _, h, l => by simp [Expr.decides] at h
  | .this, h, l | .param _, h, l | .localVar .., h, l | .null, h, l | .int _, h, l | .str _, h, l
  | .getField .., h, l | .getStatic _, h, l | .invoke .., h, l | .new .., h, l
  | .newArray .., h, l | .cast .., h, l | .boxed .., h, l | .unboxed .., h, l
  | .arith .., h, l => by
    exact decides_tested (by simpa [Expr.decides] using h) (by simp) l

/-- Lowering conditions one after the other succeeds where nothing lies on the stack. -/
theorem decides_exprs : (xs : List Expr) → xs ≠ [] → Expr.allDecide ctx scope xs = true →
    (l : Label) → Decides ctx scope (exprs (.jumpIfFalse l) xs) ⟨0, 0⟩ l
  | [], h, _, l => absurd rfl h
  | [x], _, h, l => by
    rw [Expr.allDecide, Bool.and_eq_true] at h
    rw [exprs, exprs]
    simpa using decides_expr x h.1 l
  | x :: y :: ys, _, h, l => by
    rw [Expr.allDecide, Bool.and_eq_true] at h
    rw [exprs]
    exact (decides_expr x h.1 l).bind fun _ => decides_exprs (y :: ys) (List.cons_ne_nil y ys) h.2 l

end

/-! ## Values of conditions -/

/-- What is known of a label that was placed in a place where it is jumped to. -/
theorem info_joinAt {s : SlotState} (hl : l < e.labels.size) :
    (joinAt e l s).info l = { e.info l with placement? := some ⟨e.pc, e.code.size⟩ } := by
  change (placed e l).info l = _
  rw [info, placed, getD_setIfInBounds, if_pos ⟨rfl, hl⟩]

theorem info_joinAt_of_ne {s : SlotState} {m : Label} (h : m ≠ l) :
    (joinAt e l s).info m = e.info m :=
  info_placed_of_ne h.symm

theorem size_joinAt {s : SlotState} : (joinAt e l s).labels.size = e.labels.size := by
  simp [joinAt, placed]

/-- Lowering for the value succeeds where nothing lies on the stack, and goes on. -/
structure Valued (ctx : MethodContext) (scope : TypeScope) (k : Nat) (e e' : Emitter) : Prop
    extends SameLocals e e', Closes e e' where
  poised : Poised ctx scope ⟨k, 0⟩ e'
  reachable : e.reachable = true → e'.reachable = true

/-- A number on the empty stack. -/
theorem exists_number (value : Int32) (he : Poised ctx scope ⟨0, 0⟩ e) :
    ∃ e', Runs (pushInt value) ctx e () e' ∧ Poised ctx scope ⟨1, 0⟩ e' ∧ Straight e e' ∧
      e'.slots.At ctx [.integer] := by
  obtain ⟨_, e', hrun, he', hstraight⟩ := completes_pushInt value 0 0 e he
  refine ⟨e', hrun, he', hstraight, ?_, he'.receiver⟩
  have hstack : e'.slots.stack = e.slots.stack ++ [.integer] := by
    rcases runs_pushInt.mp hrun with ⟨_, _, rfl⟩ | ⟨_, rfl⟩ <;> rfl
  rw [hstack, List.eq_nil_of_length_eq_zero he.stack]
  rfl

/-- A jump across the other way to the value. -/
theorem exists_goto (he : Poised ctx scope ⟨1, 0⟩ e) (hslots : e.slots.At ctx [.integer])
    (hl : Expects ctx [.integer] l e) :
    ∃ e' joint, Runs (branch Opcode.goto l 0) ctx e () e' ∧ SameLocals e e' ∧
      e'.labels.size = e.labels.size ∧ (∀ m, m ≠ l → e'.info m = e.info m) ∧
      (e'.info l).state? = some joint ∧ joint.At ctx [.integer] ∧ e'.reachable = false ∧
      e'.maxStack ≤ 2 * e'.pc := by
  have hpop : e.slots.pop? 0 = some e.slots :=
    pop?_eq_some.mpr ⟨Nat.zero_le _, by rw [Nat.sub_zero, List.take_length]⟩
  obtain ⟨joint, hjoint, hrun⟩ := exists_branch hpop hslots hl Opcode.goto
  have hpc : e.pc < (e.append ⟨Opcode.goto, .branch l⟩).pc := Ordered.pc_lt_append _ _
  have hmax := he.maxStack
  refine ⟨_, joint, hrun, ⟨rfl, rfl, rfl⟩, by simp [jumpTo], fun m hm => info_jumpTo_of_ne hm,
    state_jumpTo _ _ joint hl.known, hjoint, by simp [jumpTo], ?_⟩
  change e.maxStack ≤ 2 * (e.append _).pc
  omega

/-- The way to zero, which the first label starts, and the place where it meets the way to one. -/
theorem exists_meeting {w d : Nat} {jumped joint : SlotState}
    (hw : (e.info w).state? = some jumped) (hjumped : jumped.At ctx [])
    (hd : (e.info d).state? = some joint) (hjoint : joint.At ctx [.integer]) (hne : d ≠ w)
    (hdead : e.reachable = false) (hmax : e.maxStack ≤ 2 * e.pc)
    (hnamed : e.named.map (fun l => (l.name, some l.type)) = scope) :
    ∃ e', Runs (do place w; pushInt 0; place d) ctx e () e' ∧ SameLocals e e' ∧
      Poised ctx scope ⟨1, 0⟩ e' ∧ e'.labels.size = e.labels.size ∧ e'.reachable = true ∧
      ∀ m : Nat, (m = w ∨ m = d → (e'.info m).placement? ≠ none) ∧
        (m ≠ w → m ≠ d → e'.info m = e.info m) := by
  have hwsize : w < e.labels.size := lt_size_of_state (by rw [hw]; exact Option.some_ne_none _)
  have hdsize : d < e.labels.size := lt_size_of_state (by rw [hd]; exact Option.some_ne_none _)
  obtain ⟨s₁, hs₁, hrun₁⟩ := exists_place hw hjumped (by simp [hdead])
  obtain ⟨e₂, hrun₂, he₂, hstraight, hslots⟩ := exists_number (e := joinAt e w s₁) 0
    ⟨by rw [joinAt, hs₁.stack]; rfl, Nat.zero_le _, hmax, hs₁.receiver, hnamed⟩
  have hinfo : ∀ m, m ≠ w → e₂.info m = e.info m := fun m hm =>
    (hstraight.info m).trans (info_joinAt_of_ne hm)
  obtain ⟨s₃, hs₃, hrun₃⟩ := exists_place (hinfo d hne ▸ hd) hjoint fun _ => hslots
  have hsize : e₂.labels.size = e.labels.size := by rw [hstraight.labels, size_joinAt]
  refine ⟨_, runs_bind.mpr ⟨_, _, hrun₁, runs_bind.mpr ⟨_, _, hrun₂, hrun₃⟩⟩,
    ⟨hstraight.named, hstraight.nextLocal, hstraight.maxLocals⟩,
    ⟨by rw [joinAt, hs₃.stack]; rfl, he₂.paid, he₂.maxStack, hs₃.receiver, he₂.named⟩,
    size_joinAt.trans hsize, rfl, fun m => ⟨?_, fun hmw hmd => ?_⟩⟩
  · rintro (rfl | rfl)
    · rw [info_joinAt_of_ne hne.symm, hstraight.info, info_joinAt hwsize]
      exact Option.some_ne_none _
    · rw [info_joinAt (hsize.symm ▸ hdsize)]
      exact Option.some_ne_none _
  · rw [info_joinAt_of_ne hmd, hinfo m hmw]

/-- The value of a condition is zero or one. -/
theorem exists_condition {jump : Label → Emit Unit}
    (hjump : ∀ l, Decides ctx scope (jump l) ⟨0, 0⟩ l) (he : Poised ctx scope ⟨0, 0⟩ e) :
    ∃ e', Runs (condition jump .value) ctx e () e' ∧ Valued ctx scope 1 e e' := by
  have hnew : ∀ l, e.labels.size ≤ l → (twoLabels e).info l = {} := fun l hl => by
    rw [info_twoLabels, info_of_le hl]
  have hknown := size_twoLabels e
  have hne : e.labels.size + 1 ≠ e.labels.size := Nat.succ_ne_self _
  obtain ⟨_, e₁, hrun₁, hjumps⟩ := hjump e.labels.size (twoLabels e)
    ⟨he.stack, he.paid, he.maxStack, he.receiver, he.named⟩
    ⟨by rw [hknown]; exact Nat.lt_add_of_pos_right (by decide),
      fun s hs => by rw [hnew _ (Nat.le_refl _)] at hs; cases hs⟩
  obtain ⟨jumped, hjumped⟩ := Option.ne_none_iff_exists'.mp hjumps.jumped
  obtain ⟨e₂, hrun₂, he₂, hstraight, hslots⟩ := exists_number 1 hjumps.poised
  have hsize : e₂.labels.size = e.labels.size + 2 := by
    rw [hstraight.labels, hjumps.size, hknown]
  have hothers : ∀ m, m ≠ e.labels.size → e₂.info m = (twoLabels e).info m := fun m hm =>
    (hstraight.info m).trans (hjumps.others m hm)
  obtain ⟨e₃, joint, hrun₃, hsame, hsize₃, hinfo₃, hdone, hjoint, hdead, hmax⟩ :=
    exists_goto he₂ hslots (l := e.labels.size + 1)
      ⟨by rw [hsize]; exact Nat.lt_succ_self _, fun s hs => by
        rw [hothers _ hne, hnew _ (Nat.le_succ _)] at hs
        cases hs⟩
  obtain ⟨e', hrun₄, hsame', hpoised, hsize', hreachable, hinfo⟩ := exists_meeting
    (by rw [hinfo₃ _ hne.symm, hstraight.info, hjumped]) (hjumps.expects.state jumped hjumped)
    hdone hjoint hne hdead hmax (hsame.named ▸ he₂.named)
  have hnewLabels : SameLocals e (twoLabels e) := ⟨rfl, rfl, rfl⟩
  refine ⟨e', ?_, hnewLabels.trans (hjumps.toSameLocals.trans (hstraight.toSameLocals.trans
    (hsame.trans hsame'))), ⟨?_, fun m hm => ?_, fun m hm hlt => ?_⟩, hpoised,
    fun _ => hreachable⟩
  · rw [condition, runs_newLabel_bind, runs_newLabel_bind, Array.size_push]
    exact runs_bind.mpr ⟨_, _, hrun₁, runs_bind.mpr ⟨_, _, hrun₂, runs_bind.mpr ⟨_, _, hrun₃,
      hrun₄⟩⟩⟩
  · rw [hsize', hsize₃, hsize]
    exact Nat.le_add_right _ _
  · have hw : m ≠ e.labels.size := Nat.ne_of_lt hm
    have hd : m ≠ e.labels.size + 1 := Nat.ne_of_lt (Nat.lt_succ_of_lt hm)
    rw [(hinfo m).2 hw hd, hinfo₃ m hd, hothers m hw, info_twoLabels]
  · rw [hsize', hsize₃, hsize] at hlt
    exact (hinfo m).1 (by omega)

/-- The value of an expression or of a condition, where nothing lies on the stack. -/
theorem exists_valued {x : Expr} {k : Nat} (h : x.yields? ctx scope = some k)
    (he : Poised ctx scope ⟨0, 0⟩ e) :
    ∃ e', Runs (expr .value x) ctx e () e' ∧ Valued ctx scope k e e' := by
  have hplain : x.slots? ctx scope = some k →
      ∃ e', Runs (expr .value x) ctx e () e' ∧ Valued ctx scope k e e' := by
    intro hslots
    obtain ⟨_, e', hrun, he', hstraight⟩ := completes_expr x hslots 0 0 e he
    rw [Height.above_zero, Nat.zero_add] at he'
    exact ⟨e', hrun, hstraight.toSameLocals, Closes.of_labels hstraight.labels, he',
      hstraight.reachable.trans⟩
  have hcondition : ∀ jump, (∀ dest, expr dest x = condition jump dest) →
      x.decides ctx scope = true → k = 1 →
      ∃ e', Runs (expr .value x) ctx e () e' ∧ Valued ctx scope k e e' := by
    rintro jump hform hdecides rfl
    rw [hform]
    refine exists_condition (fun l => ?_) he
    have hjump := decides_expr x hdecides l
    rwa [hform] at hjump
  cases x
  case and items =>
    rw [Expr.yields?, Option.ite_none_right_eq_some, Option.some.injEq] at h
    exact hcondition _ (fun dest => by rw [expr]) h.1 h.2.symm
  case compare op lhs rhs =>
    rw [Expr.yields?, Option.ite_none_right_eq_some, Option.some.injEq] at h
    by_cases hrhs : rhs = .null
    · subst hrhs
      exact hcondition _ (fun dest => expr_compare_null_right dest op lhs) h.1 h.2.symm
    by_cases hlhs : lhs = .null
    · subst hlhs
      exact hcondition _ (fun dest => expr_compare_null_left dest op hrhs) h.1 h.2.symm
    · exact hcondition _ (fun dest => expr_compare dest op hlhs hrhs) h.1 h.2.symm
  all_goals exact hplain h

end Emit

end ClassSynth
