import ClassSynth.Proofs.Emit.Onward
import ClassSynth.Proofs.Verifier.Values

/-!
# Steps that turn values into values

`Turns` says of a step of lowering that it takes values of some kinds from the stack and leaves
values of others, by moves of the emitter, and leaves everything below as it is. Steps compose: what
one leaves the next takes (`Turns.bind`), and a step may work above values that it does not touch
(`Turns.under`). A step may also jump to a label, always with the stack that it started on.
-/

namespace ClassSynth

open Emit VerificationType

namespace Precision

/-- The value can be taken where one of the kind is wanted, and a constructor was called on it. -/
def Offers (p : Precision) (t : VerificationType) (k : ValueKind) : Prop :=
  p.Holds t k ∧ ∀ offset, t ≠ .uninitialized offset

theorem Offers.of_kind? {p : Precision} {t : VerificationType} {k : ValueKind}
    (h : t.kind? = some k) : p.Offers t k :=
  ⟨.of_kind? h, by rintro _ rfl; cases h⟩

theorem Offers.of_same {p : Precision} {t : VerificationType} {k l : ValueKind}
    (h : p.Offers t k) (hsame : p.same k l = true) : p.Offers t l :=
  ⟨h.1.of_same hsame, h.2⟩

theorem offers_of_alike {p : Precision} {ts : List VerificationType} {ks ls : List ValueKind}
    (h : List.Forall₂ p.Offers ts ks) (hsame : List.Forall₂ (fun k l => p.same k l = true) ks ls) :
    List.Forall₂ p.Offers ts ls := by
  induction h generalizing ls with
  | nil =>
    cases hsame
    exact .nil
  | cons ht _ ih =>
    cases hsame with
    | cons hk hks => exact .cons (ht.of_same hk) (ih hks)

theorem holds_of_offers {p : Precision} {ts : List VerificationType} {ks : List ValueKind}
    (h : List.Forall₂ p.Offers ts ks) : List.Forall₂ p.Holds ts ks :=
  h.imp fun _ _ h => h.1

end Precision

theorem VerificationType.mem_flat {t : VerificationType} {ts : List VerificationType}
    (h : t ∈ flat ts) : t ∈ ts ∨ t = .top := by
  obtain ⟨u, hu, ht⟩ := List.mem_flatMap.mp h
  rw [slots] at ht
  split_ifs at ht
  · rcases List.mem_cons.mp ht with rfl | ht
    · exact .inl hu
    · exact .inr (List.mem_singleton.mp ht)
  · exact .inl (List.mem_singleton.mp ht ▸ hu)

namespace Emitter

variable {p : Precision} {ctx : MethodContext} {usable : Bool} {scope : TypeScope}
  {e e' e₁ e₂ : Emitter} {locals base xs ys zs : List VerificationType} {t : Option Label}

/-! ## States -/

/-- Offsets and slots fit into 16 bits. -/
structure Small (e : Emitter) : Prop where
  pc : e.pc ≤ 65535
  locals : e.maxLocals ≤ 65535

theorem Small.of_steps {writes : Bool} {floor : Nat} (h : e'.Small)
    (hto : Steps writes floor e e') : e.Small :=
  ⟨Nat.le_trans hto.pc_le h.pc, Nat.le_trans hto.maxLocals_le h.locals⟩

/-- The local variable in a slot is one of a type. -/
structure HoldsType (p : Precision) (e : Emitter) (t : TypeName) (slot : Nat) : Prop where
  inhabits : p.inhabits t = true
  bound : slot + t.slotSize ≤ e.maxLocals
  value : p = .kind → ∃ vt, Represents e.pool t vt ∧ e.slots.locals[slot]? = some vt

/-- Code for expressions may go on: parameters and local variables are where they should be. -/
structure Ready (p : Precision) (ctx : MethodContext) (usable : Bool) (scope : TypeScope)
    (e : Emitter) : Prop where
  named : List.Forall₂ (fun v l => v.1 = l.name ∧
    ∀ t, v.2 = some t → l.type = t ∧ HoldsType p e t l.slot) scope e.named
  params : ∀ index slot t, ctx.paramSlot? index = some (slot, t) → HoldsType p e t slot
  receiver : ctx.isStatic = false → 0 < e.maxLocals ∧ (e.slots.locals.headD .top).isWide = false
  usable : ctx.isStatic = false → p = .kind → usable = true →
    ∃ index, e.slots.locals[0]? = some (.object index)
  built : ∀ offset, .uninitialized offset ∉ e.slots.locals
  /-- Objects under construction come from instructions that are already there. -/
  fresh : ∀ offset, .uninitialized offset ∈ e.slots.stack → offset.toNat < e.pc

/-- The label stands nowhere yet, and all jumps to it carry the same state. -/
structure Open (e : Emitter) (l : Label) (s : SlotState) : Prop where
  known : l < e.labels.size
  unplaced : (e.info l).placement? = none
  state : (e.info l).state? = none ∨ (e.info l).state? = some s

theorem HoldsType.mono {type : TypeName} {slot : Nat} (h : HoldsType p e type slot)
    (hmax : e.maxLocals ≤ e'.maxLocals) (hpool : e.pool.Grows e'.pool)
    (hlocals : p = .kind → e.slots.locals <+: e'.slots.locals) : HoldsType p e' type slot where
  inhabits := h.inhabits
  bound := Nat.le_trans h.bound hmax
  value := fun hp => by
    obtain ⟨vt, hvt, hslot⟩ := h.value hp
    obtain ⟨more, hmore⟩ := hlocals hp
    refine ⟨vt, hvt.grows hpool, ?_⟩
    rw [← hmore, List.getElem?_append_left (List.getElem?_eq_some_iff.mp hslot).1, hslot]

/-! ## Changes of the stack -/

/-- Moves that leave `ys` above `base`. Of the old labels only `t` is jumped to, with `base`. -/
structure Turned (p : Precision) (t : Option Label) (e e' : Emitter)
    (locals base ys : List VerificationType) : Prop where
  moves : Moves p e e'
  same : SameLocals e e'
  slots : e'.slots = ⟨locals, flat (base ++ ys)⟩
  labels : ∀ m, m < e.labels.size → t ≠ some m → e'.info m = e.info m
  target : ∀ l, t = some l → Open e' l ⟨locals, flat base⟩

namespace Turned

theorem size_labels_le (h : Turned p t e e' locals base ys) : e.labels.size ≤ e'.labels.size :=
  h.moves.steps.size_labels_le

theorem refl (hslots : e.slots = ⟨locals, flat (base ++ ys)⟩)
    (htarget : ∀ l, t = some l → Open e l ⟨locals, flat base⟩) :
    Turned p t e e locals base ys :=
  ⟨.refl, ⟨rfl, rfl, rfl⟩, hslots, fun _ _ _ => rfl, htarget⟩

theorem trans (h : Turned p t e e₁ locals base ys) (h' : Turned p t e₁ e₂ locals base zs) :
    Turned p t e e₂ locals base zs where
  moves := h.moves.trans h'.moves
  same := h.same.trans h'.same
  slots := h'.slots
  labels := fun m hm ht => (h'.labels m (Nat.lt_of_lt_of_le hm h.size_labels_le) ht).trans
    (h.labels m hm ht)
  target := h'.target

/-- Without jumps to old labels, the code may stand above more values. -/
theorem under (h : Turned p none e e' locals (base ++ xs) ys) :
    Turned p none e e' locals base (xs ++ ys) where
  moves := h.moves
  same := h.same
  slots := by rw [h.slots, List.append_assoc]
  labels := h.labels
  target := by simp

/-- Without jumps to old labels, open labels stay open. -/
theorem of_none (h : Turned p none e e' locals base ys)
    (htarget : ∀ l, t = some l → Open e l ⟨locals, flat base⟩) :
    Turned p t e e' locals base ys where
  moves := h.moves
  same := h.same
  slots := h.slots
  labels := fun m hm _ => h.labels m hm (by simp)
  target := fun l hl => by
    obtain ⟨hknown, hunplaced, hstate⟩ := htarget l hl
    have hsame := h.labels l hknown (by simp)
    exact ⟨Nat.lt_of_lt_of_le hknown h.size_labels_le, hsame ▸ hunplaced, hsame ▸ hstate⟩

theorem constants {pool : ConstantPool} (hpool : e.pool.Grows pool)
    (hslots : e.slots = ⟨locals, flat (base ++ ys)⟩) :
    Turned p none e { e with pool } locals base ys :=
  ⟨.single (.constants e pool hpool), ⟨rfl, rfl, rfl⟩, hslots, fun _ _ _ => rfl,
    by simp⟩

/-- Code for expressions may go on behind such code, where what was pushed is under construction
only by instructions that are there. -/
theorem ready_of_fresh (xs : List VerificationType) (h : Turned p t e e' locals base ys)
    (hready : Ready p ctx usable scope e) (hslots : e.slots = ⟨locals, flat (base ++ xs)⟩)
    (hy : ∀ offset, .uninitialized offset ∈ ys → offset.toNat < e'.pc) :
    Ready p ctx usable scope e' := by
  have hlocals : e'.slots.locals = e.slots.locals := by rw [h.slots, hslots]
  have hholds : ∀ type slot, HoldsType p e type slot → HoldsType p e' type slot :=
    fun type slot htype => htype.mono (Nat.le_of_eq h.same.maxLocals.symm) h.moves.steps.pool
      fun _ => by rw [hlocals]
  refine
    { named := ?_
      params := fun index slot type hparam => hholds _ _ (hready.params index slot type hparam)
      receiver := by rw [hlocals, h.same.maxLocals]; exact hready.receiver
      usable := by rw [hlocals]; exact hready.usable
      built := by rw [hlocals]; exact hready.built
      fresh := fun offset hmem => ?_ }
  · rw [h.same.named]
    exact hready.named.imp fun v l hv =>
      ⟨hv.1, fun type htype => ⟨(hv.2 type htype).1, hholds _ _ (hv.2 type htype).2⟩⟩
  · rw [h.slots] at hmem
    change _ ∈ flat (base ++ ys) at hmem
    rw [flat_append, List.mem_append] at hmem
    rcases hmem with hmem | hmem
    · refine Nat.lt_of_lt_of_le (hready.fresh offset ?_) h.moves.steps.pc_le
      rw [hslots]
      change _ ∈ flat (base ++ xs)
      rw [flat_append]
      exact List.mem_append_left _ hmem
    · rcases mem_flat hmem with hmem | hmem
      · exact hy offset hmem
      · cases hmem

/-- Code for expressions may go on behind such code. -/
theorem ready (xs : List VerificationType) {ks : List ValueKind}
    (h : Turned p t e e' locals base ys)
    (hready : Ready p ctx usable scope e) (hslots : e.slots = ⟨locals, flat (base ++ xs)⟩)
    (hy : List.Forall₂ p.Offers ys ks) : Ready p ctx usable scope e' := by
  refine h.ready_of_fresh xs hready hslots fun offset hmem => ?_
  obtain ⟨i, hi, hget⟩ := List.mem_iff_getElem.mp hmem
  exact absurd hget ((hy.get hi (hy.length_eq ▸ hi)).2 offset)

/-- An instruction with its effect. -/
theorem act (xs ys : List VerificationType) {i : Instruction} {effect : Effect} {maxStack : Nat}
    (hplain : i.Plain) (hexit : i.isUnconditionalExit = false) (hmeans : e.Means i effect)
    (hend : effect.localsEnd ≤ e.maxLocals) (hslots : e.slots = ⟨locals, flat (base ++ xs)⟩)
    (hfits : Fits p e.pc effect ⟨locals, flat (base ++ xs)⟩ ⟨locals, flat (base ++ ys)⟩)
    (hstack : e.maxStack ≤ maxStack)
    (hheight : (flat (base ++ ys)).length ≤ max (flat (base ++ xs)).length maxStack) :
    Turned p none e { e.append i with slots := ⟨locals, flat (base ++ ys)⟩, maxStack } locals base
      ys where
  moves := .single (.act e i effect ⟨locals, flat (base ++ ys)⟩ maxStack e.maxLocals e.reachable
    hplain hmeans (hslots ▸ hfits) (by rw [hslots]; exact hheight) hstack hend (Nat.le_refl _)
    (by simp [hexit]))
  same := ⟨rfl, rfl, rfl⟩
  slots := rfl
  labels := fun _ _ _ => rfl
  target := by simp

end Turned

/-- The emitter with one more value on the stack, above known ones. -/
theorem pushed_eq (e : Emitter) (locals base : List VerificationType) (vt : VerificationType) :
    ({ e with slots := ⟨locals, flat base⟩ } : Emitter).pushed vt
      = { e with slots := ⟨locals, flat (base ++ [vt])⟩
                 maxStack := max e.maxStack (flat (base ++ [vt])).length } := by
  simp [pushed, SlotState.push]

theorem pop?_values {s : SlotState} {n : Nat} {ks : List ValueKind}
    (hx : List.Forall₂ p.Offers xs ks) (hn : ValueKind.slotsOf ks = n)
    (h : SlotState.pop? ⟨locals, flat (base ++ xs)⟩ n = some s) : s = ⟨locals, flat base⟩ := by
  have hpush : (⟨locals, flat (base ++ xs)⟩ : SlotState)
      = SlotState.pushAll ⟨locals, flat base⟩ xs := by
    simp [SlotState.pushAll]
  rw [hpush] at h
  exact SlotState.pop?_pushAll (by rw [Precision.length_flat (Precision.holds_of_offers hx), hn]) h

/-- An emitter whose stack is known. -/
theorem with_slots_eq (h : e.slots = ⟨locals, flat (base ++ [])⟩) :
    { e with slots := ⟨locals, flat base⟩ } = e := by
  rw [List.append_nil] at h
  rw [← h]

/-- The values that stand for a result of a type: one, or none for `void`. -/
def Gives (pool : ConstantPool) (type : TypeName) (ys : List VerificationType) : Prop :=
  type.isVoid = true ∧ ys = [] ∨
    type.isVoid = false ∧ ∃ vt, Represents pool type vt ∧ ys = [vt]

theorem Gives.offers {pool : ConstantPool} {type : TypeName} (h : Gives pool type ys) :
    List.Forall₂ p.Offers ys type.valueKinds := by
  rcases h with ⟨hvoid, rfl⟩ | ⟨hvoid, vt, hvt, rfl⟩
  · rw [TypeName.valueKinds, if_pos hvoid]
    exact .nil
  · rw [TypeName.valueKinds, if_neg (by simp [hvoid])]
    exact .cons (.of_kind? hvt.kind?) .nil

theorem Gives.yields {pool : ConstantPool} {type : TypeName} (h : Gives pool type ys)
    (htype : type.isVoid = true ∨ p.inhabits type = true) :
    List.Forall₂ p.Yields ys type.valueKinds := by
  rcases h with ⟨hvoid, rfl⟩ | ⟨hvoid, vt, hvt, rfl⟩
  · rw [TypeName.valueKinds, if_pos hvoid]
    exact .nil
  · rw [TypeName.valueKinds, if_neg (by simp [hvoid])]
    exact .cons (Precision.yields_of_represents hvt (htype.resolve_left (by simp [hvoid]))) .nil

/-- An instruction after which a value of a type is pushed. -/
theorem turned_pushType (xs : List VerificationType) (effect : Effect) {i : Instruction}
    {type : TypeName} {u : Unit}
    (hplain : i.Plain) (hexit : i.isUnconditionalExit = false) (hmeans : e.Means i effect)
    (hend : effect.localsEnd ≤ e.maxLocals) (hslots : e.slots = ⟨locals, flat (base ++ xs)⟩)
    (hfits : ∀ ys pool, e.pool.Grows pool → Gives pool type ys →
      Fits p e.pc effect ⟨locals, flat (base ++ xs)⟩ ⟨locals, flat (base ++ ys)⟩)
    (hrun : Runs (pushType type) ctx { e.append i with slots := ⟨locals, flat base⟩ } u e') :
    ∃ ys, Gives e'.pool type ys ∧ Turned p none e e' locals base ys := by
  have hlow : (flat base).length ≤ (flat (base ++ xs)).length := by simp
  rcases runs_pushType.mp hrun with ⟨hvoid, rfl⟩ | ⟨hvoid, rfl⟩
  · have hgives : Gives e.pool type [] := .inl ⟨hvoid, rfl⟩
    have hact := Turned.act xs [] hplain hexit hmeans hend hslots
      (hfits [] e.pool (ConstantPool.Grows.refl _) hgives) (Nat.le_refl _)
      (by rw [List.append_nil]; exact Nat.le_trans hlow (Nat.le_max_left _ _))
    rw [List.append_nil] at hact
    exact ⟨[], hgives, hact⟩
  · have hpool := (settles_verificationType type e.pool).1
    have hrepresents := Represents.run type e.pool
    have hgives : Gives ((verificationType type).run e.pool).2 type
        [((verificationType type).run e.pool).1] := .inr ⟨hvoid, _, hrepresents, rfl⟩
    refine ⟨_, hgives, ?_⟩
    have hconstants := Turned.constants (p := p) hpool hslots
    have hact := Turned.act (e := { e with pool := ((verificationType type).run e.pool).2 })
      xs [((verificationType type).run e.pool).1] hplain hexit (hmeans.grows hpool) hend hslots
      (hfits _ _ hpool hgives) (Nat.le_max_left e.maxStack _)
      (Nat.le_trans (Nat.le_max_right _ _) (Nat.le_max_right _ _))
    have hpushed := pushed_eq
      { e.append i with pool := ((verificationType type).run e.pool).2 } locals base
      ((verificationType type).run e.pool).1
    exact hpushed ▸ hconstants.trans hact

end Emitter

namespace Emit

open Emitter

variable {α β : Type} {p : Precision} {ctx : MethodContext} {usable : Bool} {scope : TypeScope}
  {n : Nat} {t : Option Label} {ks as bs ds : List ValueKind}

/-- A step that adds constants is followed by the rest, which may rely on its result. -/
theorem exists_of_adds {step : ConstantPool.Adding α} {P : ConstantPool → α → Prop}
    (hadds : ConstantPool.Adds step P) {f : α → Emit β} {b : β} {e e' : Emitter}
    (h : Runs (addConstants step >>= f) ctx e b e') :
    ∃ a pool, e.pool.Grows pool ∧ (∀ r, pool.Grows r → r.Indexable → P r a) ∧
      Runs (f a) ctx { e with pool } b e' :=
  ⟨_, _, (hadds e.pool).1, (hadds e.pool).2, runs_addConstants_bind.mp h⟩

/-! ## Steps -/

/-- Whenever the step succeeds, it takes values of the kinds `pops` from the stack and leaves values
of the kinds `pushes`. Of the first `n` labels only `t` is jumped to, with what stood below. -/
structure Turns (p : Precision) (ctx : MethodContext) (usable : Bool) (scope : TypeScope) (n : Nat)
    (step : Emit α) (t : Option Label) (pops pushes : List ValueKind) : Prop where
  steps : ∀ e a e', n ≤ e.labels.size → Runs step ctx e a e' → Steps false n e e'
  turned : ∀ e a e' locals base xs, n ≤ e.labels.size → Runs step ctx e a e' → e'.Small →
    Ready p ctx usable scope e → e.slots = ⟨locals, flat (base ++ xs)⟩ →
    List.Forall₂ p.Offers xs pops → (∀ l, t = some l → Open e l ⟨locals, flat base⟩) →
    ∃ ys, List.Forall₂ p.Offers ys pushes ∧ Turned p t e e' locals base ys

namespace Turns

variable {x : Emit α}

theorem bind {f : α → Emit β} (hx : Turns p ctx usable scope n x t as bs)
    (hf : ∀ a, Turns p ctx usable scope n (f a) t bs ds) :
    Turns p ctx usable scope n (x >>= f) t as ds where
  steps := by
    intro e b e' hn hrun
    obtain ⟨a, e₁, hrun₁, hrun₂⟩ := runs_bind.mp hrun
    have hto₁ := hx.steps e a e₁ hn hrun₁
    exact hto₁.trans ((hf a).steps e₁ b e' (Nat.le_trans hn hto₁.size_labels_le) hrun₂)
  turned := by
    intro e b e' locals base xs hn hrun hsmall hready hslots hxs htarget
    obtain ⟨a, e₁, hrun₁, hrun₂⟩ := runs_bind.mp hrun
    have hn₁ := Nat.le_trans hn (hx.steps e a e₁ hn hrun₁).size_labels_le
    have hsmall₁ := hsmall.of_steps ((hf a).steps e₁ b e' hn₁ hrun₂)
    obtain ⟨ys, hys, hturned₁⟩ := hx.turned e a e₁ locals base xs hn hrun₁ hsmall₁ hready hslots hxs
      htarget
    obtain ⟨zs, hzs, hturned₂⟩ := (hf a).turned e₁ b e' locals base ys hn₁ hrun₂ hsmall
      (hturned₁.ready xs hready hslots hys) hturned₁.slots hys hturned₁.target
    exact ⟨zs, hzs, hturned₁.trans hturned₂⟩

theorem pure {a : α} : Turns p ctx usable scope n (Pure.pure a : Emit α) t ks ks where
  steps := fun e b e' hn hrun => Advances.pure ctx e b e' hn hrun
  turned := by
    intro e b e' locals base xs _ hrun _ _ hslots hxs htarget
    obtain ⟨_, rfl⟩ := runs_pure.mp hrun
    exact ⟨xs, hxs, .refl hslots htarget⟩

/-- A step above values that it does not touch. -/
theorem under (ks : List ValueKind) (h : Turns p ctx usable scope n x none as bs) :
    Turns p ctx usable scope n x none (ks ++ as) (ks ++ bs) where
  steps := h.steps
  turned := by
    intro e a e' locals base xs hn hrun hsmall hready hslots hxs _
    have hlow := List.forall₂_take_append xs ks as hxs
    have hhigh := List.forall₂_drop_append xs ks as hxs
    rw [← List.take_append_drop ks.length xs, ← List.append_assoc] at hslots
    obtain ⟨ys, hys, hturned⟩ := h.turned e a e' locals _ _ hn hrun hsmall hready hslots hhigh
      (by simp)
    exact ⟨_, List.rel_append hlow hys, hturned.under⟩

/-- A step that adds values to those that are there. -/
theorem above (ks : List ValueKind) (h : Turns p ctx usable scope n x none [] bs) :
    Turns p ctx usable scope n x none ks (ks ++ bs) := by
  simpa using h.under ks

theorem of_none (h : Turns p ctx usable scope n x none as bs) :
    Turns p ctx usable scope n x t as bs where
  steps := h.steps
  turned := by
    intro e a e' locals base xs hn hrun hsmall hready hslots hxs htarget
    obtain ⟨ys, hys, hturned⟩ := h.turned e a e' locals base xs hn hrun hsmall hready hslots hxs
      (by simp)
    exact ⟨ys, hys, hturned.of_none htarget⟩

/-- Values may be taken for values of kinds that are alike. -/
theorem alike (h : Turns p ctx usable scope n x t as bs)
    (hsame : List.Forall₂ (fun k l => p.same k l = true) bs ds) :
    Turns p ctx usable scope n x t as ds where
  steps := h.steps
  turned := by
    intro e a e' locals base xs hn hrun hsmall hready hslots hxs htarget
    obtain ⟨ys, hys, hturned⟩ := h.turned e a e' locals base xs hn hrun hsmall hready hslots hxs
      htarget
    exact ⟨ys, Precision.offers_of_alike hys hsame, hturned⟩

theorem fail {cause : CodeGenError} :
    Turns p ctx usable scope n (Emit.fail cause : Emit α) t as bs where
  steps := fun _ _ _ _ hrun => absurd hrun runs_fail
  turned := fun _ _ _ _ _ _ _ hrun => absurd hrun runs_fail

theorem fail_bind {cause : CodeGenError} {f : α → Emit β} :
    Turns p ctx usable scope n ((Emit.fail cause : Emit α) >>= f) t as bs := by
  have hruns : ∀ e b e', ¬ Runs ((Emit.fail cause : Emit α) >>= f) ctx e b e' := by
    intro e b e' hrun
    obtain ⟨_, _, hfail, _⟩ := runs_bind.mp hrun
    exact runs_fail hfail
  exact ⟨fun e b e' _ hrun => absurd hrun (hruns e b e'),
    fun e b e' _ _ _ _ hrun => absurd hrun (hruns e b e')⟩

theorem ite {q : Prop} [Decidable q] {y : Emit α} (hx : Turns p ctx usable scope n x t as bs)
    (hy : Turns p ctx usable scope n y t as bs) :
    Turns p ctx usable scope n (if q then x else y) t as bs := by
  split_ifs
  · exact hx
  · exact hy

theorem read_bind {f : MethodContext → Emit β} (h : Turns p ctx usable scope n (f ctx) t as bs) :
    Turns p ctx usable scope n (read >>= f) t as bs where
  steps := fun e b e' hn hrun => h.steps e b e' hn (runs_read_bind.mp hrun)
  turned := fun e b e' locals base xs hn hrun =>
    h.turned e b e' locals base xs hn (runs_read_bind.mp hrun)

theorem typeOf_bind {e : Expr} {type : TypeName} {f : TypeName → Emit β}
    (he : e.valueType? ctx.className ctx.params = some type)
    (h : Turns p ctx usable scope n (f type) t as bs) :
    Turns p ctx usable scope n (typeOf e >>= f) t as bs := by
  have hruns : ∀ e₀ b e', Runs (typeOf e >>= f) ctx e₀ b e' → Runs (f type) ctx e₀ b e' := by
    intro e₀ b e' hrun
    obtain ⟨found, e₁, htype, hrun⟩ := runs_bind.mp hrun
    obtain ⟨hfound, rfl⟩ := runs_typeOf.mp htype
    obtain rfl := Option.some.inj (he.symm.trans hfound)
    exact hrun
  exact ⟨fun e₀ b e' hn hrun => h.steps e₀ b e' hn (hruns _ _ _ hrun),
    fun e₀ b e' locals base xs hn hrun => h.turned e₀ b e' locals base xs hn (hruns _ _ _ hrun)⟩

theorem checkCount (params : List TypeName) (args : List Expr) :
    Turns p ctx usable scope n (Emit.checkCount params args) t ks ks :=
  .ite .fail .pure

end Turns

/-! ## Instructions -/

/-- What follows an instruction takes values of the kinds `pops` from the stack and pushes a value
of a type. -/
structure Replaces (p : Precision) (ctx : MethodContext) (rest : Emit Unit) (pops : List ValueKind)
    (type : TypeName) : Prop where
  advances : ∀ n, Advances false n n rest
  runs : ∀ (e e' : Emitter) locals base xs, List.Forall₂ p.Offers xs pops →
    e.slots = ⟨locals, flat (base ++ xs)⟩ → Runs rest ctx e () e' →
    Runs (pushType type) ctx { e with slots := ⟨locals, flat base⟩ } () e'

theorem runs_pushType_int {e e' : Emitter} {u : Unit} :
    Runs (pushType .int) ctx e u e' ↔ Runs (push .integer) ctx e u e' := by
  have hvoid : TypeName.int.isVoid = false := by decide
  have hrun : (verificationType .int).run e.pool = (.integer, e.pool) := by
    have hnull : TypeName.int.isNull = false := by decide
    have hint : TypeName.int.primitive? = some .int := by decide
    rw [verificationType, if_neg (by simp [hnull]), hint]
    rfl
  rw [runs_pushType, hvoid, hrun, runs_push]
  simp

namespace Replaces

variable {type : TypeName} {rest : Emit Unit}

theorem pushType (type : TypeName) : Replaces p ctx (Emit.pushType type) [] type where
  advances := fun _ => advances_pushType type
  runs := by
    intro e e' locals base xs hxs hslots hrun
    cases hxs
    rwa [with_slots_eq hslots]

theorem pushInteger : Replaces p ctx (push .integer) [] .int where
  advances := fun _ => advances_push
  runs := fun e e' locals base xs hxs hslots hrun =>
    (pushType .int).runs e e' locals base xs hxs hslots (runs_pushType_int.mpr hrun)

theorem nothing : Replaces p ctx (Pure.pure ()) [] .void where
  advances := fun _ => .pure
  runs := by
    intro e e' locals base xs hxs hslots hrun
    cases hxs
    obtain ⟨_, rfl⟩ := runs_pure.mp hrun
    rw [with_slots_eq hslots]
    exact runs_pushType.mpr (.inl ⟨by decide, rfl⟩)

theorem pop_bind {k : Nat} (hk : ValueKind.slotsOf ks = k) (h : Replaces p ctx rest [] type) :
    Replaces p ctx (do pop k; rest) ks type where
  advances := fun n => advances_pop.bind fun _ => h.advances n
  runs := by
    intro e e' locals base xs hxs hslots hrun
    obtain ⟨s, hpop, hrun⟩ := runs_pop_bind.mp hrun
    rw [hslots] at hpop
    obtain rfl := pop?_values hxs hk hpop
    exact h.runs { e with slots := ⟨locals, flat base⟩ } e' locals base [] .nil
      (by rw [List.append_nil]) hrun

theorem pop {k : Nat} (hk : ValueKind.slotsOf ks = k) : Replaces p ctx (Emit.pop k) ks .void := by
  have hpop := pop_bind hk (@nothing p ctx)
  rwa [show (do Emit.pop k; Pure.pure ()) = Emit.pop k from bind_pure_unit] at hpop

end Replaces

section

variable {e e' : Emitter} {locals base xs : List VerificationType} {type : TypeName}
  {rest : Emit Unit}

/-- An instruction with what follows it. -/
theorem turned_replaces {i : Instruction} {effect : Effect} (hplain : i.Plain)
    (hexit : i.isUnconditionalExit = false) (hmeans : e.Means i effect)
    (hend : effect.localsEnd ≤ e.maxLocals) (hslots : e.slots = ⟨locals, flat (base ++ xs)⟩)
    (hxs : List.Forall₂ p.Offers xs ks) (hrest : Replaces p ctx rest ks type)
    (hfits : ∀ ys pool, e.pool.Grows pool → Gives pool type ys →
      Fits p e.pc effect ⟨locals, flat (base ++ xs)⟩ ⟨locals, flat (base ++ ys)⟩)
    (hrun : Runs rest ctx (e.append i) () e') :
    ∃ ys, Gives e'.pool type ys ∧ Turned p none e e' locals base ys :=
  turned_pushType xs effect hplain hexit hmeans hend hslots hfits
    (hrest.runs (e.append i) e' locals base xs hxs hslots hrun)

/-- An instruction that takes values and pushes one. -/
theorem turned_takes {i : Instruction} (hplain : i.Plain) (hexit : i.isUnconditionalExit = false)
    (hmeans : e.Means i (.takes ks type.valueKinds))
    (hslots : e.slots = ⟨locals, flat (base ++ xs)⟩) (hxs : List.Forall₂ p.Offers xs ks)
    (htype : type.isVoid = true ∨ p.inhabits type = true) (hrest : Replaces p ctx rest ks type)
    (hrun : Runs rest ctx (e.append i) () e') :
    ∃ ys, Gives e'.pool type ys ∧ Turned p none e e' locals base ys :=
  turned_replaces hplain hexit hmeans (Nat.zero_le _) hslots hxs hrest
    (fun _ _ _ hgives => Fits.takes (s := ⟨locals, flat (base ++ xs)⟩) rfl
      (Precision.holds_of_offers hxs) (hgives.yields htype)) hrun

end

/-- An instruction without an operand from the pool. -/
theorem turns_instruction (type : TypeName) {opcode : UInt8} {operand : Operand} {rest : Emit Unit}
    (hplain : Instruction.Plain ⟨opcode, operand⟩)
    (hexit : Instruction.isUnconditionalExit ⟨opcode, operand⟩ = false)
    (heffect : ∀ pool, Instruction.effect? pool ⟨opcode, operand⟩
      = some (.takes ks type.valueKinds))
    (htype : type.isVoid = true ∨ p.inhabits type = true) (hrest : Replaces p ctx rest ks type) :
    Turns p ctx usable scope n (do instruction opcode operand; rest) none ks type.valueKinds where
  steps := ((advances_instruction hplain).bind fun _ => hrest.advances n) ctx
  turned := by
    intro e u e' locals base xs _ hrun _ _ hslots hxs _
    rw [runs_instruction_bind] at hrun
    obtain ⟨ys, hgives, hturned⟩ := turned_takes hplain hexit (fun r _ _ => heffect r) hslots
      hxs htype hrest hrun
    exact ⟨ys, hgives.offers, hturned⟩

/-- An instruction with an index of the pool. -/
theorem turns_indexed (type : TypeName) {step : ConstantPool.Adding UInt16}
    {P : ConstantPool → UInt16 → Prop} (hadds : ConstantPool.Adds step P) {opcode : UInt8}
    {rest : Emit Unit}
    (hplain : ∀ index, Instruction.Plain ⟨opcode, .short index⟩)
    (hexit : ∀ index, Instruction.isUnconditionalExit ⟨opcode, .short index⟩ = false)
    (heffect : ∀ r index, P r index →
      Instruction.effect? r ⟨opcode, .short index⟩ = some (.takes ks type.valueKinds))
    (htype : type.isVoid = true ∨ p.inhabits type = true) (hrest : Replaces p ctx rest ks type) :
    Turns p ctx usable scope n
      (do let index ← addConstants step; instruction opcode (.short index); rest) none ks
      type.valueKinds where
  steps := ((advances_addConstants hadds).bind fun _ => (advances_instruction (hplain _)).bind
    fun _ => hrest.advances n) ctx
  turned := by
    intro e u e' locals base xs _ hrun _ _ hslots hxs _
    obtain ⟨index, pool, hpool, hP, hrun⟩ := exists_of_adds hadds hrun
    rw [runs_instruction_bind] at hrun
    obtain ⟨ys, hgives, hturned⟩ := turned_takes (e := { e with pool }) (hplain _) (hexit _)
      (fun r hr hindexable => heffect r _ (hP r hr hindexable)) hslots hxs htype hrest hrun
    exact ⟨ys, hgives.offers, (Turned.constants hpool hslots).trans hturned⟩

end Emit

end ClassSynth
