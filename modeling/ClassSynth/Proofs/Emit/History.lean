import ClassSynth.Proofs.Emit.Steps
import ClassSynth.Proofs.Emit.Throughout
import Mathlib.Data.Set.Insert

/-!
# The visits of labels

Lowering concerns labels in two ways: it jumps to them, and it places them. The `History` of a step
lists these visits in their order, each with the emitter before it, up to the end of the step or to
its failure. What the other steps leave alone and each visit keeps, a history keeps
(`History.invariant`).

Lowering creates the labels that it places, and it jumps to a label only before it places it
(`Respects`). So the label of each visit stands nowhere yet (`exists_history_stmts`).
-/

namespace ClassSynth

/-- What the emitter knows of labels and frames is as it was; there may be more labels. -/
structure Emitter.Untouched (e e' : Emitter) : Prop where
  info : ∀ l, e'.info l = e.info l
  frames : e'.frames = e.frames
  labels : e.labels.size ≤ e'.labels.size

/-- The label stands nowhere yet. -/
structure Emitter.Pending (e : Emitter) (l : Label) : Prop where
  known : l < e.labels.size
  unplaced : (e.info l).placement? = none

namespace Emit

open Emitter

variable {α β : Type} {ctx : MethodContext} {e e' : Emitter}

/-! ## Histories -/

/-- A step that concerns a label. -/
inductive LabelStep
  | jump (opcode : UInt8) (l : Label) (slots : Nat)
  | place (l : Label)

namespace LabelStep

def emit : LabelStep → Emit Unit
  | jump opcode l slots => branch opcode l slots
  | place l => Emit.place l

def label : LabelStep → Label
  | jump _ l _ => l
  | place l => l

end LabelStep

/-- A step that concerns a label, with the emitter before it. -/
structure Visit where
  emitter : Emitter
  step : LabelStep

/-- The label of the visit stands nowhere yet. -/
def Visit.Timely (v : Visit) : Prop := v.emitter.Pending v.step.label

/-- A step that leaves labels and frames alone, also where it fails. -/
def Quiet (x : Emit α) : Prop :=
  ∀ (ctx : MethodContext) (e : Emitter), e.Untouched (stateAfter ctx x e)

/-- The visits of labels on the way through a step, in their order, each of a label that stands
nowhere yet. The last one may have failed. -/
inductive History (ctx : MethodContext) : {α : Type} → Emit α → Emitter → List Visit → Prop
  | quiet {α : Type} {x : Emit α} {e : Emitter} (hx : Elementary x) (hquiet : Quiet x) :
      History ctx x e []
  | visit {v : Visit} (htimely : v.Timely) : History ctx v.step.emit v.emitter [v]
  | bind {α β : Type} {x : Emit α} {f : α → Emit β} {e e₁ : Emitter} {a : α}
      {visits rest : List Visit} (hfirst : History ctx x e visits) (hruns : Runs x ctx e a e₁)
      (hrest : History ctx (f a) e₁ rest) : History ctx (x >>= f) e (visits ++ rest)
  | fails {α β : Type} {x : Emit α} {f : α → Emit β} {e e₁ : Emitter} {visits : List Visit}
      (hfirst : History ctx x e visits) (hfails : Fails x ctx e e₁) :
      History ctx (x >>= f) e visits

/-- An element of two lists one after the other stands in one of them. -/
theorem split_of_append {vs ws before after : List Visit} {v : Visit}
    (h : vs ++ ws = before ++ v :: after) :
    (∃ rest, vs = before ++ v :: rest ∧ after = rest ++ ws) ∨
      ∃ first, before = vs ++ first ∧ ws = first ++ v :: after := by
  rcases List.append_eq_append_iff.mp h with ⟨first, hbefore, hws⟩ | ⟨rest, hvs, hafter⟩
  · exact .inr ⟨first, hbefore, hws⟩
  · rcases List.cons_eq_append_iff.mp hafter with ⟨rfl, rfl⟩ | ⟨rest, rfl, rfl⟩
    · exact .inr ⟨[], by simpa using hvs.symm, rfl⟩
    · exact .inl ⟨rest, hvs, rfl⟩

/-- What holds of the visits so far and the emitter, holds at each visit and at the end, if the
other steps leave it alone and each visit keeps it. -/
theorem History.invariant {P : List Visit → Emitter → Prop} {x : Emit α} {visits past : List Visit}
    (h : History ctx x e visits)
    (hquiet : ∀ past e e', e.Untouched e' → P past e → P past e')
    (hvisit : ∀ past v e', v.Timely → P past v.emitter → Runs v.step.emit ctx v.emitter () e' →
      P (past ++ [v]) e')
    (he : P past e) :
    (∀ before v after, visits = before ++ v :: after → P (past ++ before) v.emitter) ∧
      ∀ a e', Runs x ctx e a e' → P (past ++ visits) e' := by
  induction h generalizing past with
  | quiet hx hx' =>
    refine ⟨fun before v after h => ?_, fun a e' hruns => ?_⟩
    · simp at h
    · rw [List.append_nil, ← hruns.stateAfter_eq]
      exact hquiet _ _ _ (hx' ctx _) he
  | @visit v htimely =>
    refine ⟨fun before w after h => ?_, fun u e' hruns => ?_⟩
    · rcases List.cons_eq_append_iff.mp h with ⟨rfl, hcons⟩ | ⟨rest, rfl, hcons⟩
      · obtain ⟨rfl, rfl⟩ := List.cons.inj hcons
        rwa [List.append_nil]
      · simp at hcons
    · exact hvisit past v e' htimely he hruns
  | @bind α β x f e e₁ a visits rest hfirst hruns hrest ihfirst ihrest =>
    obtain ⟨hat, hend⟩ := ihfirst he
    obtain ⟨hat', hend'⟩ := ihrest (hend a e₁ hruns)
    refine ⟨fun before v after h => ?_, fun b e' h => ?_⟩
    · rcases split_of_append h with ⟨_, hvisits, _⟩ | ⟨first, rfl, hrest⟩
      · exact hat before v _ hvisits
      · rw [← List.append_assoc]
        exact hat' first v after hrest
    · obtain ⟨a', e₁', hruns', hb⟩ := runs_bind.mp h
      obtain ⟨rfl, rfl⟩ : a' = a ∧ e₁' = e₁ := by
        simpa using (hruns'.symm.trans hruns : (Except.ok a', e₁') = (Except.ok a, e₁))
      rw [← List.append_assoc]
      exact hend' b e' hb
  | fails hfirst hfails ihfirst =>
    refine ⟨(ihfirst he).1, fun b e' h => ?_⟩
    obtain ⟨a, e₁, hruns, _⟩ := runs_bind.mp h
    obtain ⟨err, hfails⟩ := hfails
    cases congrArg Prod.fst (hruns.symm.trans hfails)

/-- Every visit is of a label that stands nowhere yet. -/
theorem History.timely {x : Emit α} {visits : List Visit} (h : History ctx x e visits) :
    ∀ v ∈ visits, v.Timely := by
  induction h with
  | quiet => simp
  | visit htimely => exact List.forall_mem_singleton.mpr htimely
  | bind _ _ _ ihfirst ihrest => exact List.forall_mem_append.mpr ⟨ihfirst, ihrest⟩
  | fails _ _ ihfirst => exact ihfirst

/-! ## Labels that stand nowhere yet -/

/-- All the labels stand nowhere yet. -/
def AllPending (labels : Set Label) (e : Emitter) : Prop := ∀ l ∈ labels, e.Pending l

theorem AllPending.untouched {labels : Set Label} (he : AllPending labels e) (h : e.Untouched e') :
    AllPending labels e' :=
  fun l hl => ⟨Nat.lt_of_lt_of_le (he l hl).known h.labels, h.info l ▸ (he l hl).unplaced⟩

/-- From states with the precondition, the step visits only labels that stand nowhere yet, and the
postcondition holds where it succeeds. -/
def Orderly (ctx : MethodContext) (pre : Emitter → Prop) (x : Emit α)
    (post : α → Emitter → Prop) : Prop :=
  ∀ e, pre e → (∃ visits, History ctx x e visits) ∧ ∀ a e', Runs x ctx e a e' → post a e'

theorem Orderly.bind {pre : Emitter → Prop} {x : Emit α} {f : α → Emit β}
    {post : α → Emitter → Prop} {last : β → Emitter → Prop} (hx : Orderly ctx pre x post)
    (hf : ∀ a, Orderly ctx (post a) (f a) last) : Orderly ctx pre (x >>= f) last := by
  intro e he
  obtain ⟨⟨visits, hvisits⟩, hpost⟩ := hx e he
  refine ⟨?_, fun b e' h => ?_⟩
  · rcases runs_or_fails ctx x e with ⟨a, hruns⟩ | hfails
    · obtain ⟨rest, hrest⟩ := (hf a _ (hpost a _ hruns)).1
      exact ⟨visits ++ rest, .bind hvisits hruns hrest⟩
    · exact ⟨visits, .fails hvisits hfails⟩
  · obtain ⟨a, e₁, hruns, hb⟩ := runs_bind.mp h
    exact (hf a e₁ (hpost a e₁ hruns)).2 b e' hb

/-- What is known apart from the state may be assumed. -/
theorem Orderly.assume {p : Prop} {pre : Emitter → Prop} {x : Emit α} {post : α → Emitter → Prop}
    (hx : p → Orderly ctx pre x post) : Orderly ctx (fun e => p ∧ pre e) x post :=
  fun e he => hx he.1 e he.2

/-- Besides labels of its own, the step visits only the given ones, and it places none of them. -/
def Respects (ctx : MethodContext) (labels : Set Label) (x : Emit α) : Prop :=
  Orderly ctx (AllPending labels) x fun _ => AllPending labels

section

variable {labels : Set Label} {l : Label}

namespace Respects

theorem bind {x : Emit α} {f : α → Emit β} (hx : Respects ctx labels x)
    (hf : ∀ a, Respects ctx labels (f a)) : Respects ctx labels (x >>= f) :=
  Orderly.bind hx hf

theorem ite {p : Prop} [Decidable p] {x y : Emit α} (hx : Respects ctx labels x)
    (hy : Respects ctx labels y) : Respects ctx labels (if p then x else y) := by
  split_ifs
  · exact hx
  · exact hy

theorem of_quiet {x : Emit α} (hx : Elementary x) (hquiet : Quiet x) : Respects ctx labels x := by
  refine fun e he => ⟨⟨[], .quiet hx hquiet⟩, fun a e' hruns => ?_⟩
  rw [← hruns.stateAfter_eq]
  exact he.untouched (hquiet ctx e)

/-- A step that changes neither labels nor frames and does not fail. -/
theorem of_modifyGet {f : Emitter → α × Emitter} (hx : Elementary (modifyGet f : Emit α))
    (h : ∀ e : Emitter, e.Untouched (f e).2) : Respects ctx labels (modifyGet f) :=
  of_quiet hx fun _ e => h e

theorem pure {a : α} : Respects ctx labels (Pure.pure a : Emit α) :=
  of_quiet (.pure a) fun _ _ => ⟨fun _ => rfl, rfl, Nat.le_refl _⟩

theorem get : Respects ctx labels (MonadState.get : Emit Emitter) :=
  of_quiet .get fun _ _ => ⟨fun _ => rfl, rfl, Nat.le_refl _⟩

theorem read : Respects ctx labels (MonadReader.read : Emit MethodContext) :=
  of_quiet .read fun _ _ => ⟨fun _ => rfl, rfl, Nat.le_refl _⟩

theorem fail {cause : CodeGenError} : Respects ctx labels (Emit.fail cause : Emit α) :=
  of_quiet (.fail cause) fun _ _ => ⟨fun _ => rfl, rfl, Nat.le_refl _⟩

end Respects

/-! ### Primitive steps -/

theorem respects_instruction (opcode : UInt8) (operand : Operand) :
    Respects ctx labels (instruction opcode operand) :=
  .of_modifyGet (.instruction opcode operand) fun _ => ⟨fun _ => rfl, rfl, Nat.le_refl _⟩

theorem respects_addConstants (step : ConstantPool.Adding α) :
    Respects ctx labels (addConstants step) :=
  .of_modifyGet (.addConstants step) fun _ => ⟨fun _ => rfl, rfl, Nat.le_refl _⟩

theorem respects_push (t : VerificationType) : Respects ctx labels (push t) :=
  .of_modifyGet (.push t) fun _ => ⟨fun _ => rfl, rfl, Nat.le_refl _⟩

theorem respects_pop (slots : Nat) : Respects ctx labels (pop slots) := by
  refine .of_quiet (.pop slots) fun ctx e => ?_
  rcases runs_or_fails ctx (pop slots) e with ⟨u, hruns⟩ | hfails
  · obtain ⟨s, _, heq⟩ := runs_pop.mp hruns
    rw [heq]
    exact ⟨fun _ => rfl, rfl, Nat.le_refl _⟩
  · rw [hfails.eq_of_pop]
    exact ⟨fun _ => rfl, rfl, Nat.le_refl _⟩

theorem respects_setLocal (slot : Nat) (t : VerificationType) :
    Respects ctx labels (setLocal slot t) :=
  .of_modifyGet (.setLocal slot t) fun _ => ⟨fun _ => rfl, rfl, Nat.le_refl _⟩

theorem respects_replaceAll (old new : VerificationType) :
    Respects ctx labels (replaceAll old new) :=
  .of_modifyGet (.replaceAll old new) fun _ => ⟨fun _ => rfl, rfl, Nat.le_refl _⟩

theorem respects_declare (name : String) (t : TypeName) :
    Respects ctx labels (declare name t) :=
  .of_modifyGet (.declare name t) fun _ => ⟨fun _ => rfl, rfl, Nat.le_refl _⟩

theorem respects_endOfFlow : Respects ctx labels endOfFlow :=
  .of_modifyGet .endOfFlow fun _ => ⟨fun _ => rfl, rfl, Nat.le_refl _⟩

/-- A jump to one of the labels. -/
theorem respects_branch {opcode : UInt8} {slots : Nat} (hl : l ∈ labels) :
    Respects ctx labels (branch opcode l slots) := by
  refine fun e he =>
    ⟨⟨_, .visit (v := ⟨e, .jump opcode l slots⟩) (he l hl)⟩, fun u e' hruns => ?_⟩
  obtain ⟨s, joint, _, _, rfl⟩ := runs_branch.mp hruns
  refine fun m hm => ⟨?_, ?_⟩
  · simpa [jumpTo] using (he m hm).known
  · rw [placement_jumpTo]
    exact (he m hm).unplaced

/-- A new label is none of the others. -/
theorem orderly_newLabel :
    Orderly ctx (AllPending labels) newLabel fun l e => l ∉ labels ∧ AllPending (insert l labels) e := by
  have hpush : ∀ e : Emitter, e.Untouched { e with labels := e.labels.push {} } := fun e =>
    ⟨info_push e, rfl, by simp⟩
  have hquiet : Quiet newLabel := fun _ => hpush
  refine fun e he => ⟨⟨[], .quiet .newLabel hquiet⟩, fun l e' hruns => ?_⟩
  obtain ⟨rfl, rfl⟩ := runs_newLabel.mp hruns
  refine ⟨fun hl => Nat.lt_irrefl _ (he _ hl).known, ?_⟩
  rintro m (rfl | hm)
  · exact ⟨by simp, by rw [info_push, info_of_le (Nat.le_refl _)]⟩
  · exact he.untouched (hpush e) m hm

/-- A label that is placed leaves the others open. -/
theorem orderly_place {others : Set Label} (hl : l ∈ labels)
    (hothers : ∀ m ∈ others, m ∈ labels ∧ m ≠ l) :
    Orderly ctx (AllPending labels) (place l) fun _ => AllPending others := by
  refine fun e he =>
    ⟨⟨_, .visit (v := ⟨e, .place l⟩) (he l hl)⟩, fun u e' hruns m hm => ⟨?_, ?_⟩⟩
  · have hknown := (he m (hothers m hm).1).known
    rcases runs_place.mp hruns with ⟨_, rfl⟩ | ⟨_, _, _, _, rfl⟩
    · simpa [placed] using hknown
    · simpa [joinAt, placed] using hknown
  · rw [placement_of_place hruns (hothers m hm).2.symm]
    exact (he m (hothers m hm).1).unplaced

/-! ### Small pieces -/

theorem respects_pushType (t : TypeName) : Respects ctx labels (pushType t) :=
  .ite ((respects_addConstants _).bind fun _ => respects_push _) .pure

theorem respects_slotInstruction (opcode0 opcode : UInt8) (slot : Nat) :
    Respects ctx labels (slotInstruction opcode0 opcode slot) :=
  .ite (respects_instruction _ _) (respects_instruction _ _)

theorem respects_load (t : TypeName) (slot : Nat) : Respects ctx labels (load t slot) :=
  (respects_slotInstruction _ _ slot).bind fun _ => respects_pushType t

theorem respects_store (t : TypeName) (slot : Nat) : Respects ctx labels (store t slot) :=
  (respects_pop _).bind fun _ => (respects_slotInstruction _ _ slot).bind fun _ =>
    (respects_addConstants _).bind fun _ => respects_setLocal _ _

theorem respects_loadConstant (index : UInt16) : Respects ctx labels (loadConstant index) :=
  .ite (respects_instruction _ _) (respects_instruction _ _)

theorem respects_pushInt (value : Int32) : Respects ctx labels (pushInt value) := by
  have hpush : ∀ _ : PUnit, Respects ctx labels (push .integer) := fun _ => respects_push _
  exact .ite ((respects_instruction _ _).bind hpush) <|
    .ite ((respects_instruction _ _).bind hpush) <|
    .ite ((respects_instruction _ _).bind hpush) <|
    (respects_addConstants _).bind fun _ => (respects_loadConstant _).bind hpush

theorem respects_findLocal (name : String) : Respects ctx labels (findLocal name) := by
  refine Respects.get.bind fun e => ?_
  split
  · exact .pure
  · exact .fail

theorem respects_loadThis : Respects ctx labels loadThis := by
  refine Respects.read.bind fun ctx => .ite (Respects.fail.bind fun _ => ?_) ?_
  all_goals exact (respects_instruction _ _).bind fun _ =>
    Respects.get.bind fun _ => respects_push _

theorem respects_checkCount (params : List TypeName) (args : List Expr) :
    Respects ctx labels (checkCount params args) :=
  .ite .fail .pure

theorem respects_typeOf (x : Expr) : Respects ctx labels (typeOf x) := by
  refine Respects.read.bind fun ctx => ?_
  split
  · exact .pure
  · exact .fail

theorem respects_methodRef (method : MethodRef) : Respects ctx labels (methodRef method) :=
  respects_addConstants _

theorem respects_call (kind : CallKind) (method : MethodRef) :
    Respects ctx labels (call kind method) := by
  refine (respects_methodRef method).bind fun index => ?_
  cases kind
  all_goals exact (respects_instruction _ _).bind fun _ => (respects_pop _).bind fun _ =>
    respects_pushType method.ret

theorem respects_newArray (element : TypeName) : Respects ctx labels (newArray element) := by
  unfold newArray
  split
  · exact (respects_instruction _ _).bind fun _ => (respects_pop _).bind fun _ =>
      respects_pushType _
  · exact (respects_addConstants _).bind fun _ => (respects_instruction _ _).bind fun _ =>
      (respects_pop _).bind fun _ => respects_pushType _

theorem respects_newObject (t : TypeName) : Respects ctx labels (newObject t) :=
  Respects.get.bind fun _ => (respects_addConstants _).bind fun _ =>
    (respects_instruction _ _).bind fun _ => (respects_push _).bind fun _ =>
    (respects_instruction _ _).bind fun _ => (respects_push _).bind fun _ => .pure

theorem respects_callConstructor (t : TypeName) (params : List TypeName) :
    Respects ctx labels (callConstructor t params) :=
  (respects_methodRef _).bind fun _ => (respects_instruction _ _).bind fun _ => respects_pop _

theorem respects_dropValue (t : TypeName) : Respects ctx labels (dropValue t) := by
  unfold dropValue
  split
  · exact .pure
  · exact (respects_instruction _ _).bind fun _ => respects_pop _
  · exact (respects_instruction _ _).bind fun _ => respects_pop _

theorem respects_nullJump (op : CompareOp) (hl : l ∈ labels) :
    Respects ctx labels (nullJump op l) :=
  respects_branch hl

theorem respects_compareJump (op : CompareOp) (t : TypeName) (hl : l ∈ labels) :
    Respects ctx labels (compareJump op t l) := by
  cases op
  all_goals exact .ite (respects_branch hl) <| .ite (respects_branch hl) <|
    (respects_instruction _ _).bind fun _ => (respects_pop _).bind fun _ =>
    (respects_push _).bind fun _ => respects_branch hl

end

end Emit

/-- The label of a jump is one of the labels. -/
def Destination.Among (labels : Set Label) : Destination → Prop
  | .value => True
  | .jumpIfFalse l => l ∈ labels

namespace Emit

open Emitter

variable {ctx : MethodContext} {labels : Set Label} {dest : Destination}

theorem respects_settle (hdest : dest.Among labels) : Respects ctx labels (settle dest) := by
  cases dest with
  | value => exact .pure
  | jumpIfFalse l => exact respects_branch hdest

/-- The two labels of a condition whose value is wanted are its own. -/
theorem respects_condition {jump : Label → Emit Unit}
    (hjump : ∀ labels l, l ∈ labels → Respects ctx labels (jump l)) (hdest : dest.Among labels) :
    Respects ctx labels (condition jump dest) := by
  cases dest with
  | jumpIfFalse l => exact hjump labels l hdest
  | value =>
    refine orderly_newLabel.bind fun whenFalse => .assume fun hwhenFalse => ?_
    refine orderly_newLabel.bind fun done => .assume fun hdone => ?_
    have hdone_ne : done ≠ whenFalse := fun h => hdone (h ▸ Set.mem_insert _ _)
    refine Orderly.bind (hjump _ whenFalse (.inr (.inl rfl))) fun _ => ?_
    refine Orderly.bind (respects_pushInt 1) fun _ => ?_
    refine Orderly.bind (respects_branch (.inl rfl)) fun _ => ?_
    have hothers : ∀ m ∈ insert done labels,
        m ∈ insert done (insert whenFalse labels) ∧ m ≠ whenFalse := by
      rintro m (rfl | hm)
      · exact ⟨.inl rfl, hdone_ne⟩
      · exact ⟨.inr (.inr hm), fun h => hwhenFalse (h ▸ hm)⟩
    refine (orderly_place (.inr (.inl rfl)) hothers).bind fun _ => ?_
    refine Orderly.bind (respects_pushInt 0) fun _ => orderly_place (.inl rfl) fun m hm => ?_
    exact ⟨.inr hm, fun h => hdone (.inr (h ▸ hm))⟩

mutual

theorem respects_expr : (x : Expr) → (labels : Set Label) → (dest : Destination) →
    dest.Among labels → Respects ctx labels (expr dest x)
  | .this, labels, dest, hdest => by
    rw [expr]
    exact respects_loadThis.bind fun _ => respects_settle hdest
  | .param index, labels, dest, hdest => by
    rw [expr]
    refine Respects.read.bind fun ctx => ?_
    split
    · exact (respects_load _ _).bind fun _ => respects_settle hdest
    · exact Respects.fail.bind fun _ => respects_settle hdest
  | .localVar name _, labels, dest, hdest => by
    rw [expr]
    exact (respects_findLocal name).bind fun l => (respects_load _ _).bind fun _ =>
      respects_settle hdest
  | .null, labels, dest, hdest => by
    rw [expr]
    exact (respects_instruction _ _).bind fun _ => (respects_push _).bind fun _ =>
      respects_settle hdest
  | .bool value, labels, dest, hdest => by
    cases dest with
    | value =>
      rw [expr]
      exact respects_pushInt _
    | jumpIfFalse l =>
      rw [expr]
      exact .ite .pure (respects_branch hdest)
  | .int value, labels, dest, hdest => by
    rw [expr]
    exact (respects_pushInt value).bind fun _ => respects_settle hdest
  | .str value, labels, dest, hdest => by
    rw [expr]
    exact (respects_addConstants _).bind fun _ => (respects_loadConstant _).bind fun _ =>
      (respects_pushType _).bind fun _ => respects_settle hdest
  | .getField target field, labels, dest, hdest => by
    rw [expr]
    exact (respects_expr target labels .value trivial).bind fun _ =>
      (respects_addConstants _).bind fun _ => (respects_instruction _ _).bind fun _ =>
      (respects_pop _).bind fun _ => (respects_pushType _).bind fun _ => respects_settle hdest
  | .getStatic field, labels, dest, hdest => by
    rw [expr]
    exact (respects_addConstants _).bind fun _ => (respects_instruction _ _).bind fun _ =>
      (respects_pushType _).bind fun _ => respects_settle hdest
  | .invoke kind method target args, labels, dest, hdest => by
    rw [expr]
    have hcall : Respects ctx labels (do
        checkCount method.params args
        exprs .value args
        call kind method
        settle dest) :=
      (respects_checkCount _ _).bind fun _ => (respects_exprs args labels .value trivial).bind
        fun _ => (respects_call kind method).bind fun _ => respects_settle hdest
    exact .ite ((respects_receiver method target labels).bind fun _ => hcall) hcall
  | .new type params args, labels, dest, hdest => by
    rw [expr]
    exact (respects_newObject type).bind fun _ => (respects_checkCount _ _).bind fun _ =>
      (respects_exprs args labels .value trivial).bind fun _ =>
      (respects_callConstructor _ _).bind fun _ => (respects_replaceAll _ _).bind fun _ =>
      respects_settle hdest
  | .newArray element items, labels, dest, hdest => by
    rw [expr]
    exact (respects_pushInt _).bind fun _ => (respects_newArray element).bind fun _ =>
      (respects_elements element items labels 0).bind fun _ => respects_settle hdest
  | .cast type value, labels, dest, hdest => by
    rw [expr]
    have hcast : Respects ctx labels (do
        expr .value value
        let index ← addConstants (ConstantPool.addClass type.internalName)
        instruction Opcode.checkcast (.short index)
        pop 1
        pushType type
        settle dest) :=
      (respects_expr value labels .value trivial).bind fun _ =>
        (respects_addConstants _).bind fun _ => (respects_instruction _ _).bind fun _ =>
        (respects_pop _).bind fun _ => (respects_pushType _).bind fun _ => respects_settle hdest
    exact .ite (Respects.fail.bind fun _ => hcast) hcast
  | .boxed value source, labels, dest, hdest => by
    rw [expr]
    split
    · exact Respects.fail.bind fun _ => respects_settle hdest
    · exact (respects_expr value labels .value trivial).bind fun _ =>
        (respects_call _ _).bind fun _ => respects_settle hdest
  | .unboxed value target, labels, dest, hdest => by
    rw [expr]
    split
    · exact Respects.fail.bind fun _ => respects_settle hdest
    · exact (respects_expr value labels .value trivial).bind fun _ =>
        (respects_call _ _).bind fun _ => respects_settle hdest
  | .arith op lhs rhs, labels, dest, hdest => by
    rw [expr_arith]
    exact (respects_expr lhs labels .value trivial).bind fun _ =>
      (respects_expr rhs labels .value trivial).bind fun _ =>
      (respects_instruction _ _).bind fun _ => (respects_pop _).bind fun _ =>
      (respects_push _).bind fun _ => respects_settle hdest
  | .and items, labels, dest, hdest => by
    rw [expr]
    exact respects_condition (fun labels l hl => respects_exprs items labels (.jumpIfFalse l) hl)
      hdest
  | .compare op lhs rhs, labels, dest, hdest => by
    have hlhs : ∀ {labels}, Respects ctx labels (expr .value lhs) :=
      respects_expr lhs _ .value trivial
    have hrhs : ∀ {labels}, Respects ctx labels (expr .value rhs) :=
      respects_expr rhs _ .value trivial
    by_cases hr : rhs = .null
    · rw [hr, expr_compare_null_right]
      exact respects_condition (fun _ _ hl => hlhs.bind fun _ => respects_nullJump op hl) hdest
    · by_cases hl : lhs = .null
      · rw [hl, expr_compare_null_left dest op hr]
        exact respects_condition (fun _ _ hl => hrhs.bind fun _ => respects_nullJump op hl) hdest
      · rw [expr_compare dest op hl hr]
        exact respects_condition (fun _ _ hl => (respects_typeOf lhs).bind fun t =>
          hlhs.bind fun _ => hrhs.bind fun _ => respects_compareJump op t hl) hdest

theorem respects_exprs : (xs : List Expr) → (labels : Set Label) → (dest : Destination) →
    dest.Among labels → Respects ctx labels (exprs dest xs)
  | [], labels, dest, hdest => by
    rw [exprs]
    exact .pure
  | x :: xs, labels, dest, hdest => by
    rw [exprs]
    exact (respects_expr x labels dest hdest).bind fun _ => respects_exprs xs labels dest hdest

theorem respects_receiver (method : MethodRef) : (target : Option Expr) → (labels : Set Label) →
    Respects ctx labels (receiver method target)
  | some x, labels => by
    rw [receiver]
    exact respects_expr x labels .value trivial
  | none, labels => by
    rw [receiver]
    exact .fail

theorem respects_elements (element : TypeName) : (xs : List Expr) → (labels : Set Label) →
    (index : Nat) → Respects ctx labels (elements element index xs)
  | [], labels, index => by
    rw [elements]
    exact .pure
  | x :: xs, labels, index => by
    rw [elements]
    exact (respects_instruction _ _).bind fun _ => (respects_pushType _).bind fun _ =>
      (respects_pushInt _).bind fun _ => (respects_expr x labels .value trivial).bind fun _ =>
      (respects_instruction _ _).bind fun _ => (respects_pop _).bind fun _ =>
      respects_elements element xs labels (index + 1)

end

/-! ## Statements -/

/-- A return or a throw, without the code for its value. -/
theorem respects_exitWith (opcode : UInt8) (slots : Nat) :
    Respects ctx labels (do instruction opcode; pop slots; endOfFlow) :=
  (respects_instruction _ _).bind fun _ => (respects_pop _).bind fun _ => respects_endOfFlow

theorem respects_ret (value? : Option Expr) : Respects ctx labels (stmt (.ret value?)) := by
  cases value? with
  | none =>
    rw [stmt]
    have hexit : Respects ctx labels (do instruction Opcode.returnVoid; endOfFlow) :=
      (respects_instruction _ _).bind fun _ => respects_endOfFlow
    exact Respects.read.bind fun _ => .ite (Respects.fail.bind fun _ => hexit) hexit
  | some value =>
    rw [stmt]
    have hexit : ∀ t : TypeName, Respects ctx labels (do
        expr .value value
        instruction t.returnOpcode
        pop t.slotSize
        endOfFlow) :=
      fun _ => (respects_expr value labels .value trivial).bind fun _ => respects_exitWith _ _
    exact Respects.read.bind fun ctx => .ite (Respects.fail.bind fun _ => hexit ctx.ret)
      (hexit ctx.ret)

mutual

theorem respects_stmt : (s : Stmt) → (labels : Set Label) → Respects ctx labels (stmt s)
  | .setField target field value, labels => by
    rw [stmt]
    exact (respects_expr target labels .value trivial).bind fun _ =>
      (respects_expr value labels .value trivial).bind fun _ =>
      (respects_addConstants _).bind fun _ => (respects_instruction _ _).bind fun _ =>
      respects_pop _
  | .declareLocal name type value, labels => by
    rw [stmt]
    exact (respects_expr value labels .value trivial).bind fun _ =>
      (respects_declare _ _).bind fun _ => respects_store _ _
  | .setLocal name value, labels => by
    rw [stmt]
    exact (respects_findLocal name).bind fun _ =>
      (respects_expr value labels .value trivial).bind fun _ => respects_store _ _
  | .expr value, labels => by
    rw [stmt]
    exact (respects_expr value labels .value trivial).bind fun _ =>
      (respects_typeOf value).bind fun _ => respects_dropValue _
  | .ifThen cond body, labels => by
    rw [stmt]
    refine orderly_newLabel.bind fun skip => .assume fun hskip => ?_
    refine Orderly.bind (respects_expr cond _ (.jumpIfFalse skip) (.inl rfl)) fun _ => ?_
    refine Orderly.bind (respects_stmts body _) fun _ => orderly_place (.inl rfl) fun m hm => ?_
    exact ⟨.inr hm, fun h => hskip (h ▸ hm)⟩
  | .ret value?, _ => respects_ret value?
  | .throw value, labels => by
    rw [stmt]
    exact (respects_expr value labels .value trivial).bind fun _ => respects_exitWith _ _
  | .superInit owner params args, labels => by
    rw [stmt]
    exact respects_loadThis.bind fun _ => (respects_checkCount _ _).bind fun _ =>
      (respects_exprs args labels .value trivial).bind fun _ =>
      (respects_callConstructor _ _).bind fun _ => Respects.read.bind fun _ =>
      (respects_addConstants _).bind fun _ => respects_replaceAll _ _

theorem respects_stmts : (ss : List Stmt) → (labels : Set Label) → Respects ctx labels (stmts ss)
  | [], labels => by
    rw [stmts]
    exact .pure
  | s :: ss, labels => by
    rw [stmts]
    have hcheck : Respects ctx labels (checkReachable s) :=
      Respects.get.bind fun _ => .ite .fail .pure
    exact hcheck.bind fun _ => (respects_stmt s labels).bind fun _ => respects_stmts ss labels

end

/-- A body is lowered through visits of labels that stand nowhere yet. -/
theorem exists_history_stmts (ctx : MethodContext) (body : List Stmt) (e : Emitter) :
    ∃ visits, History ctx (stmts body) e visits :=
  (respects_stmts body ∅ e fun _ hl => hl.elim).1

end Emit

end ClassSynth
