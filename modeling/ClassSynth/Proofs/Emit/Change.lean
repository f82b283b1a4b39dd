import ClassSynth.Proofs.ConstantPool.Growth
import ClassSynth.Proofs.Emit.Forms
import Mathlib.Logic.Relation

/-!
# Changes of the emitter

Lowering a body is a sequence of small changes of the emitter: an instruction is appended, a label
is jumped to or placed, the slots or the constants change. What each change keeps, all of them keep:
appended instructions stay, a placed label stays where it is, and labels below the floor of the
changes are not placed by them (`Steps.placement_of_lt`).
-/

namespace ClassSynth

namespace Emitter

/-- One change of the emitter. Local variables are written only if `locals` says so, and only labels
from `floor` on are placed, each of them once. -/
inductive Step (locals : Bool) (floor : Nat) : Emitter → Emitter → Prop
  /-- Constants are added. -/
  | constants (e : Emitter) (pool : ConstantPool) (h : e.pool.Grows pool) :
      Step locals floor e { e with pool }
  /-- An instruction without labels is appended. -/
  | instruction (e : Emitter) (i : Instruction) (h : i.Plain) : Step locals floor e (e.append i)
  /-- The types in the slots change. -/
  | slots (e : Emitter) (slots : SlotState) (maxStack : Nat) (h : e.maxStack ≤ maxStack) :
      Step locals floor e { e with slots, maxStack }
  /-- A local variable gets a value. -/
  | store (e : Emitter) (slots : SlotState) (maxLocals : Nat) (hlocals : locals = true)
      (h : e.maxLocals ≤ maxLocals) : Step locals floor e { e with slots, maxLocals }
  /-- A local variable is named. -/
  | named (e : Emitter) (nextLocal : Nat) (named : List NamedLocal) (hlocals : locals = true) :
      Step locals floor e { e with nextLocal, named }
  | newLabel (e : Emitter) : Step locals floor e { e with labels := e.labels.push {} }
  /-- A jump to a label is appended. -/
  | jump (e : Emitter) (opcode : UInt8) (l : Label) (s : SlotState)
      (hopcode : Opcode.shape? opcode = some .branch) (h : l < e.labels.size) :
      Step locals floor e (Emit.jumpTo e opcode l s)
  /-- A label that nothing jumps to is placed. -/
  | place (e : Emitter) (l : Label) (hfloor : floor ≤ l) (hnew : (e.info l).placement? = none)
      (h : (e.info l).state? = none) : Step locals floor e (Emit.placed e l)
  /-- A label that is jumped to is placed. -/
  | join (e : Emitter) (l : Label) (s : SlotState) (hfloor : floor ≤ l)
      (hnew : (e.info l).placement? = none) (h : (e.info l).state? ≠ none) :
      Step locals floor e (Emit.joinAt e l s)
  /-- An instruction after which nothing is reached is appended. -/
  | exit (e : Emitter) (i : Instruction) (s : SlotState) (h : i.Plain) :
      Step locals floor e { e.append i with slots := s, reachable := false }

/-- Any number of changes of the emitter. -/
abbrev Steps (locals : Bool) (floor : Nat) : Emitter → Emitter → Prop :=
  Relation.ReflTransGen (Step locals floor)

variable {locals : Bool} {floor : Nat} {e e' : Emitter}

/-- What each change preserves, all changes preserve. -/
theorem Steps.invariant {P : Emitter → Prop}
    (hstep : ∀ e e', Step locals floor e e' → P e → P e') (h : Steps locals floor e e')
    (he : P e) : P e' := by
  induction h with
  | refl => exact he
  | tail _ hlast ih => exact hstep _ _ hlast ih

theorem Steps.entry (h : Steps locals floor e e') : e'.entry = e.entry :=
  h.invariant (P := fun e₁ => e₁.entry = e.entry)
    (fun _ _ hstep he => by cases hstep <;> exact he) rfl

theorem Steps.trans {e'' : Emitter} (h : Steps locals floor e e')
    (h' : Steps locals floor e' e'') : Steps locals floor e e'' :=
  Relation.ReflTransGen.trans h h'

theorem Steps.mono {locals' : Bool} {floor' : Nat} (h : Steps locals floor e e')
    (hlocals : locals = true → locals' = true) (hle : floor' ≤ floor) :
    Steps locals' floor' e e' := by
  refine Relation.ReflTransGen.lift id (fun a b hstep => ?_) e e' h
  cases hstep with
  | constants pool h => exact .constants a pool h
  | instruction i h => exact .instruction a i h
  | slots slots maxStack h => exact .slots a slots maxStack h
  | store slots maxLocals hnames h => exact .store a slots maxLocals (hlocals hnames) h
  | named nextLocal named hnames => exact .named a nextLocal named (hlocals hnames)
  | newLabel => exact .newLabel a
  | jump opcode l s hopcode h => exact .jump a opcode l s hopcode h
  | place l hfloor hnew h => exact .place a l (Nat.le_trans hle hfloor) hnew h
  | join l s hfloor hnew h => exact .join a l s (Nat.le_trans hle hfloor) hnew h
  | exit i s h => exact .exit a i s h

/-- Changes may be seen as changes with a lower floor. -/
theorem Steps.lower {floor' : Nat} (h : Steps locals floor e e') (hle : floor' ≤ floor) :
    Steps locals floor' e e' :=
  h.mono id hle

theorem Steps.weaken (h : Steps locals floor e e') : Steps true 0 e e' :=
  h.mono (fun _ => rfl) (Nat.zero_le _)

/-! ## Labels -/

theorem getD_setIfInBounds (labels : Array LabelInfo) (l m : Label) (new : LabelInfo) :
    (labels.setIfInBounds l new).getD m {}
      = if l = m ∧ l < labels.size then new else labels.getD m {} := by
  rw [Array.getD_eq_getD_getElem?, Array.getElem?_setIfInBounds, Array.getD_eq_getD_getElem?]
  by_cases hlm : l = m
  · by_cases hl : l < labels.size
    · rw [if_pos hlm, if_pos hl, if_pos ⟨hlm, hl⟩, Option.getD_some]
    · rw [if_pos hlm, if_neg hl, if_neg (fun h => hl h.2), ← hlm,
        Array.getElem?_eq_none (Nat.le_of_not_lt hl)]
  · rw [if_neg hlm, if_neg (fun h => hlm h.1)]

theorem info_of_le {l : Label} (hl : e.labels.size ≤ l) : e.info l = {} := by
  rw [info, Array.getD_eq_getD_getElem?, Array.getElem?_eq_none hl]
  rfl

theorem info_push (e : Emitter) (l : Label) :
    Emitter.info { e with labels := e.labels.push {} } l = e.info l := by
  rw [info, info, Array.getD_eq_getD_getElem?, Array.getElem?_push, Array.getD_eq_getD_getElem?]
  by_cases hl : l = e.labels.size
  · rw [if_pos hl, hl, Array.getElem?_eq_none (Nat.le_refl _)]
    rfl
  · rw [if_neg hl]

theorem placement_jumpTo (e : Emitter) (opcode : UInt8) (l : Label) (s : SlotState) (m : Label) :
    ((Emit.jumpTo e opcode l s).info m).placement? = (e.info m).placement? := by
  rw [info, Emit.jumpTo, getD_setIfInBounds]
  by_cases h : l = m ∧ l < e.labels.size
  · rw [if_pos h, ← h.1]
  · rw [if_neg h, info]

theorem state_jumpTo (e : Emitter) (opcode : UInt8) {l : Label} (s : SlotState)
    (hl : l < e.labels.size) : ((Emit.jumpTo e opcode l s).info l).state? = some s := by
  rw [info, Emit.jumpTo, getD_setIfInBounds, if_pos ⟨rfl, hl⟩]

theorem info_placed_of_ne {l m : Label} (h : l ≠ m) : (Emit.placed e l).info m = e.info m := by
  rw [info, Emit.placed, getD_setIfInBounds, if_neg (fun h' => h h'.1), info]

theorem state_placed (e : Emitter) (l m : Label) :
    ((Emit.placed e l).info m).state? = (e.info m).state? := by
  rw [info, Emit.placed, getD_setIfInBounds]
  by_cases h : l = m ∧ l < e.labels.size
  · rw [if_pos h, ← h.1]
  · rw [if_neg h, info]

theorem placement_placed {l : Label} (hl : l < e.labels.size) :
    ((Emit.placed e l).info l).placement? = some ⟨e.pc, e.code.size⟩ := by
  rw [info, Emit.placed, getD_setIfInBounds, if_pos ⟨rfl, hl⟩]

theorem Step.size_labels_le (h : Step locals floor e e') : e.labels.size ≤ e'.labels.size := by
  cases h with
  | newLabel => simp
  | jump => simp [Emit.jumpTo]
  | place => simp [Emit.placed]
  | join => simp [Emit.joinAt, Emit.placed]
  | _ => exact Nat.le_refl _

theorem Steps.size_labels_le (h : Steps locals floor e e') : e.labels.size ≤ e'.labels.size :=
  h.invariant (P := fun e₁ => e.labels.size ≤ e₁.labels.size)
    (fun _ _ hstep hle => Nat.le_trans hle hstep.size_labels_le) (Nat.le_refl _)

/-- A label changes its place only if it has none and lies above the floor. -/
theorem Step.placement (h : Step locals floor e e') (m : Label) :
    (e'.info m).placement? = (e.info m).placement? ∨
      floor ≤ m ∧ (e.info m).placement? = none := by
  cases h with
  | newLabel => exact .inl (by rw [info_push])
  | jump opcode l s => exact .inl (placement_jumpTo e opcode l s m)
  | place l hfloor hnew =>
    by_cases hlm : l = m
    · exact .inr ⟨hlm ▸ hfloor, hlm ▸ hnew⟩
    · exact .inl (by rw [info_placed_of_ne hlm])
  | join l s hfloor hnew =>
    by_cases hlm : l = m
    · exact .inr ⟨hlm ▸ hfloor, hlm ▸ hnew⟩
    · exact .inl (congrArg LabelInfo.placement? (info_placed_of_ne hlm))
  | _ => exact .inl rfl

/-- Labels below the floor are not placed. -/
theorem Steps.placement_of_lt (h : Steps locals floor e e') {m : Nat} (hm : m < floor) :
    (e'.info m).placement? = (e.info m).placement? := by
  refine h.invariant (P := fun e₁ => (e₁.info m).placement? = (e.info m).placement?) ?_ rfl
  intro a b hstep ha
  rcases hstep.placement m with hsame | ⟨hfloor, _⟩
  · exact hsame.trans ha
  · exact absurd hfloor (Nat.not_le_of_lt hm)

/-- A placed label stays where it is. -/
theorem Steps.placement (h : Steps locals floor e e') {m : Label} {p : Placement}
    (hm : (e.info m).placement? = some p) : (e'.info m).placement? = some p := by
  refine h.invariant (P := fun e₁ => (e₁.info m).placement? = some p) ?_ hm
  intro a b hstep ha
  rcases hstep.placement m with hsame | ⟨_, hnone⟩
  · exact hsame.trans ha
  · rw [hnone] at ha
    cases ha

theorem Step.state (h : Step locals floor e e') {m : Label} (hm : (e.info m).state? ≠ none) :
    (e'.info m).state? ≠ none := by
  cases h with
  | newLabel => rwa [info_push]
  | jump opcode l s hopcode hl =>
    by_cases hlm : l = m
    · rw [← hlm, state_jumpTo e opcode s hl]
      exact Option.some_ne_none _
    · rwa [info, Emit.jumpTo, getD_setIfInBounds, if_neg (fun h' => hlm h'.1), ← info]
  | place l => rwa [state_placed]
  | join l s =>
    have hstate : ((Emit.joinAt e l s).info m).state? = (e.info m).state? := state_placed e l m
    rwa [hstate]
  | _ => exact hm

/-- A label that is jumped to stays so. -/
theorem Steps.state (h : Steps locals floor e e') {m : Label}
    (hm : (e.info m).state? ≠ none) : (e'.info m).state? ≠ none :=
  h.invariant (P := fun e₁ => (e₁.info m).state? ≠ none) (fun _ _ hstep ha => hstep.state ha) hm

/-! ## Code -/

theorem Step.code (h : Step locals floor e e') : e.code.toList <+: e'.code.toList := by
  cases h with
  | instruction i => exact ⟨[i], by simp [append]⟩
  | jump opcode l => exact ⟨[⟨opcode, .branch l⟩], by simp [Emit.jumpTo, append]⟩
  | exit i => exact ⟨[i], by simp [append]⟩
  | _ => exact List.prefix_rfl

/-- The instructions that are there stay. -/
theorem Steps.code (h : Steps locals floor e e') : e.code.toList <+: e'.code.toList :=
  h.invariant (P := fun e₁ => e.code.toList <+: e₁.code.toList)
    (fun _ _ hstep hle => hle.trans hstep.code) List.prefix_rfl

theorem Step.pool (h : Step locals floor e e') : e.pool.Grows e'.pool := by
  cases h with
  | constants pool h => exact h
  | _ => exact ConstantPool.Grows.refl _

theorem Steps.pool (h : Steps locals floor e e') : e.pool.Grows e'.pool :=
  h.invariant (P := fun e₁ => e.pool.Grows e₁.pool)
    (fun _ _ hstep hle => hle.trans hstep.pool) (ConstantPool.Grows.refl _)

/-! ## Local variables -/

theorem Step.maxLocals_le (h : Step locals floor e e') : e.maxLocals ≤ e'.maxLocals := by
  cases h with
  | store slots maxLocals hlocals h => exact h
  | _ => exact Nat.le_refl _

theorem Steps.maxLocals_le (h : Steps locals floor e e') : e.maxLocals ≤ e'.maxLocals :=
  h.invariant (P := fun e₁ => e.maxLocals ≤ e₁.maxLocals)
    (fun _ _ hstep hle => Nat.le_trans hle hstep.maxLocals_le) (Nat.le_refl _)

theorem Step.pc_le (h : Step locals floor e e') : e.pc ≤ e'.pc := by
  cases h with
  | instruction => exact Nat.le_add_right _ _
  | jump => exact Nat.le_add_right _ _
  | exit => exact Nat.le_add_right _ _
  | _ => exact Nat.le_refl _

theorem Steps.pc_le (h : Steps locals floor e e') : e.pc ≤ e'.pc :=
  h.invariant (P := fun e₁ => e.pc ≤ e₁.pc)
    (fun _ _ hstep hle => Nat.le_trans hle hstep.pc_le) (Nat.le_refl _)

/-- What is known of the local variables. -/
structure SameLocals (e e' : Emitter) : Prop where
  named : e'.named = e.named
  nextLocal : e'.nextLocal = e.nextLocal
  maxLocals : e'.maxLocals = e.maxLocals

theorem SameLocals.trans {e₁ e₂ e₃ : Emitter} (h : SameLocals e₁ e₂) (h' : SameLocals e₂ e₃) :
    SameLocals e₁ e₃ :=
  ⟨h'.named.trans h.named, h'.nextLocal.trans h.nextLocal, h'.maxLocals.trans h.maxLocals⟩

theorem Step.sameLocals (h : Step false floor e e') : SameLocals e e' := by
  cases h with
  | store slots maxLocals hlocals => cases hlocals
  | named nextLocal named hlocals => cases hlocals
  | _ => exact ⟨rfl, rfl, rfl⟩

theorem Steps.sameLocals (h : Steps false floor e e') : SameLocals e e' :=
  h.invariant (P := SameLocals e)
    (fun _ _ hstep hsame => hsame.trans hstep.sameLocals) ⟨rfl, rfl, rfl⟩

end Emitter

end ClassSynth
