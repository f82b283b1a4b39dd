import ClassSynth.Proofs.Verifier.Scopes

/-!
# Typed statements

The code of a statement whose operands are of the types they should be of leads from rest to rest,
by moves of the emitter (`passed_stmt`): the stack is empty again, the variables in scope hold
values of their types, and no label that was known before is touched. A block ends where its label
is placed; there only what held before the block is relied on.
-/

namespace ClassSynth

open Emit Emitter VerificationType

/-! ## Scopes grow -/

theorem TypeScope.suffix_leave {p : Precision} {outer inner : TypeScope} (h : outer <:+ inner) :
    outer <:+ outer.leave p inner := by
  cases p with
  | width => exact h
  | kind => exact List.suffix_append _ _

mutual

/-- A statement puts variables in front of the scope. -/
theorem Stmt.suffix_of_typesAfter? {p : Precision} {ctx : MethodContext} : (s : Stmt) →
    {scope after : TypeScope} → s.typesAfter? p ctx scope = some after → scope <:+ after
  | .declareLocal name type value, scope, after, h => by
    rw [typesAfter?] at h
    split_ifs at h
    obtain rfl := Option.some.inj h
    exact List.suffix_cons _ _
  | .ifThen cond body, scope, after, h => by
    rw [typesAfter?] at h
    split_ifs at h
    obtain ⟨inner, hinner, rfl⟩ := Option.map_eq_some_iff.mp h
    exact TypeScope.suffix_leave (Stmt.suffix_of_typesAfterAll? body hinner)
  | .ret none, scope, after, h => by
    rw [typesAfter?] at h
    exact Option.some.inj h ▸ List.suffix_rfl
  | .setField _ _ _, scope, after, h | .setLocal _ _, scope, after, h | .expr _, scope, after, h
  | .ret (some _), scope, after, h | .throw _, scope, after, h
  | .superInit _ _ _, scope, after, h => by
    rw [typesAfter?] at h
    split_ifs at h
    exact Option.some.inj h ▸ List.suffix_rfl

theorem Stmt.suffix_of_typesAfterAll? {p : Precision} {ctx : MethodContext} : (ss : List Stmt) →
    {scope after : TypeScope} → Stmt.typesAfterAll? p ctx scope ss = some after → scope <:+ after
  | [], scope, after, h => by
    rw [Stmt.typesAfterAll?] at h
    exact Option.some.inj h ▸ List.suffix_rfl
  | s :: ss, scope, after, h => by
    rw [Stmt.typesAfterAll?] at h
    obtain ⟨middle, hs, hss⟩ := Option.bind_eq_some_iff.mp h
    exact (Stmt.suffix_of_typesAfter? s hs).trans (Stmt.suffix_of_typesAfterAll? ss hss)

end

/-! ## From rest to rest -/

namespace Emitter

/-- What the code of a statement does. -/
structure Passed (p : Precision) (ctx : MethodContext) (after : TypeScope) (e e' : Emitter) :
    Prop where
  moves : Moves p e e'
  rests : Rests p ctx after e'
  grown : Extends e e'
  labels : ∀ m, m < e.labels.size → e'.info m = e.info m
  receiver : p = .kind → ctx.isStatic = false →
    e'.slots.locals[0]? = e.slots.locals[0]?

variable {p : Precision} {ctx : MethodContext} {usable : Bool} {scope after : TypeScope}
  {e e' e₁ e₂ : Emitter} {xs : List VerificationType} {ks : List ValueKind} {u : Unit}

theorem Passed.refl (h : Rests p ctx scope e) : Passed p ctx scope e e :=
  ⟨.refl, h, .of_same rfl rfl, fun _ _ => rfl, fun _ _ => rfl⟩

theorem Passed.trans (h : Passed p ctx scope e e₁) (h' : Passed p ctx after e₁ e') :
    Passed p ctx after e e' where
  moves := h.moves.trans h'.moves
  rests := h'.rests
  grown := h.grown.trans h'.grown
  labels := fun m hm => (h'.labels m (Nat.lt_of_lt_of_le hm h.moves.steps.size_labels_le)).trans
    (h.labels m hm)
  receiver := fun hp hstatic => (h'.receiver hp hstatic).trans (h.receiver hp hstatic)

theorem Rests.slots_eq (h : Rests p ctx scope e) : e.slots = ⟨e.slots.locals, []⟩ :=
  congrArg (SlotState.mk e.slots.locals) h.stack

/-- Code that uses up what it pushes. -/
theorem Rests.passed (h : Rests p ctx scope e) (hturned : Turned p none e e' e.slots.locals [] []) :
    Passed p ctx scope e e' where
  moves := hturned.moves
  rests := h.quiet hturned.same hturned.moves.steps.pool hturned.slots
  grown := .of_same hturned.same.named hturned.same.nextLocal
  labels := fun m hm => hturned.labels m hm (by simp)
  receiver := fun _ _ => by rw [hturned.slots]

/-- Code that ends with an instruction behind which nothing is reached. -/
theorem Rests.passed_exit {i : Instruction} (h : Rests p ctx scope e)
    (hturned : Turned p none e e₁ e.slots.locals [] xs) (hxs : List.Forall₂ p.Offers xs ks)
    (hplain : i.Plain) (hexit : i.isUnconditionalExit = true)
    (heffect : ∀ pool, i.effect? pool = some (.takes ks [])) :
    Passed p ctx scope e
      { e₁.append i with slots := ⟨e.slots.locals, []⟩, reachable := false } := by
  have hfits : Fits p e₁.pc (.takes ks []) e₁.slots ⟨e.slots.locals, []⟩ := by
    have hstack : SlotState.stack ⟨e.slots.locals, flat ([] ++ xs)⟩ = flat ([] ++ xs) := rfl
    rw [hturned.slots]
    exact .takes hstack (Precision.holds_of_offers hxs) .nil
  have hmove : Move p e₁ { e₁.append i with slots := ⟨e.slots.locals, []⟩, reachable := false } :=
    .act e₁ i (.takes ks []) ⟨e.slots.locals, []⟩ e₁.maxStack e₁.maxLocals false hplain
      (fun r _ _ => heffect r) hfits (Nat.zero_le _) (Nat.le_refl _) (Nat.zero_le _) (Nat.le_refl _)
      (by simp [hexit])
  exact
    { moves := hturned.moves.tail hmove
      rests := h.quiet ⟨hturned.same.named, hturned.same.nextLocal, hturned.same.maxLocals⟩
        hturned.moves.steps.pool rfl
      grown := .of_same hturned.same.named hturned.same.nextLocal
      labels := fun m hm => hturned.labels m hm (by simp)
      receiver := fun _ _ => rfl }

/-! ### Stores -/

/-- A value is stored into a slot. -/
theorem of_store {locals : List VerificationType} {x : VerificationType} {type : TypeName}
    {slot : Nat} (htype : p.inhabits type = true) (hslots : e.slots = ⟨locals, flat [x]⟩)
    (hx : p.Offers x (.ofType type)) (hsmall : e'.Small)
    (hapart : ∀ (j : Nat) (u : VerificationType), locals[j]? = some u → u.isWide = true →
      j + 1 ≠ slot)
    (hrun : Runs (store type slot) ctx e u e') :
    (∃ vt, Stored e e' type slot vt) ∧ Moves p e e' ∧ e'.named = e.named ∧
      e'.nextLocal = e.nextLocal ∧ e'.labels = e.labels := by
  have hvoid := Precision.isVoid_of_inhabits htype
  unfold store at hrun
  rw [runs_pop_bind] at hrun
  obtain ⟨s, hpop, hrun⟩ := hrun
  have hstack : e.slots = ⟨locals, flat ([] ++ [x])⟩ := hslots
  have hsize : ValueKind.slotsOf [.ofType type] = type.slotSize := by
    rw [← ValueKind.slots_ofType hvoid]
    exact Nat.add_zero _
  rw [hstack] at hpop
  obtain rfl : s = ⟨locals, flat []⟩ := pop?_values (.cons hx .nil) hsize hpop
  obtain ⟨_, e₁, hslot, hrun⟩ := runs_bind.mp hrun
  obtain rfl := runs_slotInstruction.mp hslot
  rw [runs_addConstants_bind, runs_setLocal] at hrun
  have hpool := (settles_verificationType type e.pool).1
  have hrepresents := Represents.run type e.pool
  have hwide := isWide_of_kind? hrepresents.kind?
  have hlength : (((verificationType type).run e.pool).1).slots.length = type.slotSize :=
    length_slots_verificationType hvoid e.pool
  have hbound : slot + type.slotSize ≤ e'.maxLocals := by
    rw [hrun]
    change _ ≤ max e.maxLocals (slot + _)
    rw [← hlength]
    exact Nat.le_max_right _ _
  have hle : slot ≤ 65535 := by
    have hmax := hsmall.locals
    omega
  have hfits : Fits p e.pc (.store (.ofType type) slot) ⟨locals, flat ([] ++ [x])⟩
      ⟨SlotState.store locals slot ((verificationType type).run e.pool).1.slots, flat []⟩ :=
    .store (s := ⟨locals, flat ([] ++ [x])⟩) rfl hx.1
      (Precision.yields_of_represents hrepresents htype) fun _ => hapart
  have hend : (Effect.store (.ofType type) slot).localsEnd
      ≤ max e.maxLocals (slot + ((verificationType type).run e.pool).1.slots.length) := by
    rw [hlength, ← ValueKind.slots_ofType hvoid]
    exact Nat.le_max_right _ _
  have hmove := Move.act { e with pool := ((verificationType type).run e.pool).2 }
    (storeForm (.ofType type) slot) _ _ e.maxStack
    (max e.maxLocals (slot + ((verificationType type).run e.pool).1.slots.length)) e.reachable
    (plain_storeForm _ slot) (fun r _ _ => effect?_storeForm _ hle r) (hstack ▸ hfits)
    (Nat.zero_le _) (Nat.le_refl _) hend (Nat.le_max_left _ _)
    (by rw [isUnconditionalExit_storeForm]; simp)
  subst hrun
  refine ⟨⟨_, hrepresents, hpool, ?_, ?_⟩, .tail (.single (.constants e _ hpool)) hmove, rfl, rfl,
    rfl⟩
  · rw [hslots]
    rfl
  · change max e.maxLocals (slot + _) = _
    rw [← hlength]
    rfl

/-- Code before a store leaves the local variables alone. -/
theorem Stored.preceded {type : TypeName} {slot : Nat}
    {vt : VerificationType} (h : Stored e₁ e' type slot vt) (hpool : e.pool.Grows e₁.pool)
    (hmax : e₁.maxLocals = e.maxLocals) (hlocals : e₁.slots.locals = e.slots.locals) :
    Stored e e' type slot vt where
  represents := h.represents
  pool := hpool.trans h.pool
  slots := by rw [h.slots, hlocals]
  maxLocals := by rw [h.maxLocals, hmax]

/-- A store behind the parameters leaves the receiver alone. -/
theorem Stored.receiver {type : TypeName} {slot : Nat} {vt : VerificationType}
    (h : Stored e e' type slot vt) (hrests : Rests p ctx scope e) (hslot : ctx.entrySize ≤ slot)
    (hp : p = .kind) (hstatic : ctx.isStatic = false) :
    e'.slots.locals[0]? = e.slots.locals[0]? := by
  obtain ⟨index, hindex⟩ := hrests.usable hstatic hp rfl
  have hpos := ctx.entrySize_pos hstatic
  rw [h.slots, hindex]
  exact SlotState.getElem?_store_of_apart hindex (.inl (by omega))

/-! ### Constructors -/

/-- The states on the way through the call of an inherited constructor. -/
structure Constructing (p : Precision) (e e₂ e' : Emitter) (ks : List ValueKind)
    (ys : List VerificationType) (pool pool' : ConstantPool) (i : Instruction) (index : UInt16) :
    Prop where
  turned : Turned p none e e₂ e.slots.locals [] (e.slots.locals.headD .top :: ys)
  offers : List.Forall₂ p.Offers ys ks
  grows : e₂.pool.Grows pool
  grows' : pool.Grows pool'
  plain : i.Plain
  falls : i.isUnconditionalExit = false
  means : Means { e₂ with pool } i (.init ks)
  result : e' = { Emitter.append { e₂ with pool } i with
    pool := pool'
    slots := SlotState.replaceAll ⟨e.slots.locals, []⟩ .uninitializedThis (.object index) }

/-- The call of an inherited constructor, followed by the use of the receiver. -/
def superCall (owner : TypeName) (params : List TypeName) (args : Emit Unit) : Emit Unit := do
  loadThis
  args
  callConstructor owner params
  let index ← addConstants (ConstantPool.addClass (← read).className.internalName)
  replaceAll .uninitializedThis (.object index)

theorem exists_constructing {owner : TypeName} {params : List TypeName} {args : Emit Unit}
    (hready : Ready p ctx usable scope e) (hstack : e.slots.stack = [])
    (hreceiver : ctx.isStatic = false → p = .kind → ∃ t, e.slots.locals[0]? = some t ∧
      (t.kind? = some .reference ∨ t.isRaw = true))
    (hparams : ∀ t ∈ params, p.declares t = true)
    (hargs : Turns p ctx usable scope 0 args none [] (params.map .ofType)) (hsmall : e'.Small)
    (hrun : Runs (superCall owner params args) ctx e u e') :
    ctx.isStatic = false ∧ ∃ e₂ ys pool pool' i index,
      Constructing p e e₂ e' (params.map .ofType) ys pool pool' i index := by
  obtain ⟨_, e₁, hthis, hrun⟩ := runs_bind.mp hrun
  obtain ⟨_, e₂, hrunArgs, hrun⟩ := runs_bind.mp hrun
  obtain ⟨_, e₃, hcall, hrun⟩ := runs_bind.mp hrun
  rw [runs_read_bind] at hrun
  obtain ⟨index, pool', hpool', _, hrun⟩ := exists_of_adds (ConstantPool.adds_class _) hrun
  have hslots : e.slots = ⟨e.slots.locals, flat []⟩ := congrArg (SlotState.mk e.slots.locals) hstack
  obtain ⟨hstatic, _⟩ := runs_loadThis.mp hthis
  have hturned₁ : Turned p none e e₁ e.slots.locals [] [e.slots.locals.headD .top] :=
    turned_loadThis hready hslots (hreceiver hstatic) hthis
  have hwide := (hready.receiver hstatic).2
  -- the receiver is no object that an instruction of the method created
  have hready₁ : Ready p ctx usable scope e₁ := by
    refine hturned₁.ready_of_fresh [] hready hslots fun offset hmem => ?_
    cases hlocals : e.slots.locals with
    | nil => simp [hlocals] at hmem
    | cons t rest =>
      obtain rfl : VerificationType.uninitialized offset = t := by simpa [hlocals] using hmem
      exact absurd (by rw [hlocals]; exact List.mem_cons_self) (hready.built offset)
  have hto₃ : Steps false 0 e₂ e₃ := advances_callConstructor owner params ctx e₂ () e₃
    (Nat.zero_le _) hcall
  have hto : Steps false 0 e₃ e' := by
    have hreplace : Steps false 0 { e₃ with pool := pool' } e' :=
      advances_replaceAll ctx _ u e' (Nat.zero_le _) hrun
    exact .head (.constants e₃ pool' hpool') hreplace
  obtain ⟨ys, hys, hturned₂⟩ := hargs.turned e₁ () e₂ e.slots.locals [e.slots.locals.headD .top] []
    (Nat.zero_le _) hrunArgs (hsmall.of_steps (hto₃.trans hto)) hready₁
    (by rw [hturned₁.slots, List.append_nil]; rfl) .nil (by simp)
  have hslots₂ : e₂.slots = ⟨e.slots.locals, flat ([] ++ e.slots.locals.headD .top :: ys)⟩ :=
    hturned₂.slots
  obtain ⟨pool, i, hpool, hplain, hexit, hmeans, rfl⟩ :=
    of_callConstructor hparams hslots₂ hys hwide hcall
  have hunder : Turned p none e₁ e₂ e.slots.locals [] (e.slots.locals.headD .top :: ys) :=
    Turned.under (show Turned p none e₁ e₂ e.slots.locals ([] ++ [e.slots.locals.headD .top]) ys
      from hturned₂)
  exact ⟨hstatic, e₂, ys, pool, pool', i, index, hturned₁.trans hunder, hys, hpool, hpool', hplain,
    hexit, hmeans, runs_replaceAll.mp hrun⟩

/-- The call of the constructor is a move with its effect. -/
theorem Constructing.moves {ys : List VerificationType} {pool pool' : ConstantPool}
    {i : Instruction} {index : UInt16} (h : Constructing p e e₂ e' ks ys pool pool' i index)
    (hfits : Fits p e₂.pc (.init ks)
      ⟨e.slots.locals, flat ([] ++ e.slots.locals.headD .top :: ys)⟩
      (SlotState.replaceAll ⟨e.slots.locals, []⟩ .uninitializedThis (.object index))) :
    Moves p e e' := by
  have hact := Move.act { e₂ with pool } i (.init ks)
    (SlotState.replaceAll ⟨e.slots.locals, []⟩ .uninitializedThis (.object index)) e₂.maxStack
    e₂.maxLocals e₂.reachable h.plain h.means (h.turned.slots ▸ hfits) (Nat.zero_le _)
    (Nat.le_refl _) (Nat.zero_le _) (Nat.le_refl _) (by simp [h.falls])
  have hconstants := Move.constants (p := p) { Emitter.append { e₂ with pool } i with
    slots := SlotState.replaceAll ⟨e.slots.locals, []⟩ .uninitializedThis (.object index) } pool'
    h.grows'
  rw [h.result]
  exact h.turned.moves.trans (.tail (.tail (.single (.constants e₂ pool h.grows)) hact) hconstants)

theorem Constructing.grows_pool {ys : List VerificationType} {pool pool' : ConstantPool}
    {i : Instruction} {index : UInt16} (h : Constructing p e e₂ e' ks ys pool pool' i index) :
    e.pool.Grows e'.pool := by
  rw [h.result]
  exact h.turned.moves.steps.pool.trans (h.grows.trans h.grows')

theorem Constructing.same {ys : List VerificationType} {pool pool' : ConstantPool} {i : Instruction}
    {index : UInt16} (h : Constructing p e e₂ e' ks ys pool pool' i index) : SameLocals e e' := by
  rw [h.result]
  exact ⟨h.turned.same.named, h.turned.same.nextLocal, h.turned.same.maxLocals⟩

/-- The object under construction becomes one that may be used. -/
theorem Constructing.constructed {ys : List VerificationType} {pool pool' : ConstantPool}
    {i : Instruction} {index : UInt16} (h : Constructing p e e₂ e' ks ys pool pool' i index)
    (hready : Ready p ctx usable scope e) (hlaid : Laid ctx e) (hstatic : ctx.isStatic = false)
    (hreceiver : p = .kind → e.slots.locals[0]? = some .uninitializedThis) :
    Moves p e e' ∧ Rests p ctx scope e' := by
  refine ⟨h.moves ?_, rests_constructed hready hlaid hreceiver h.same h.grows_pool
    (by rw [h.result])⟩
  have hstack : SlotState.stack ⟨e.slots.locals, flat ([] ++ e.slots.locals.headD .top :: ys)⟩
      = flat ([] ++ e.slots.locals.headD .top :: ys) := rfl
  refine .construct hstack (Precision.holds_of_offers h.offers) (hready.receiver hstatic).2 rfl
    fun hp => ?_
  rw [List.headD_eq_head?_getD, List.head?_eq_getElem?, hreceiver hp]
  rfl

theorem replaceAll_eq_self {locals : List VerificationType} {old new : VerificationType}
    (h : old ∉ locals) : SlotState.replaceAll ⟨locals, []⟩ old new = ⟨locals, []⟩ := by
  have hkept : locals.map (fun t => if t = old then new else t) = locals := by
    refine (List.map_congr_left (g := id) fun t ht => if_neg ?_).trans (List.map_id _)
    rintro rfl
    exact h ht
  rw [SlotState.replaceAll]
  exact congrArg (SlotState.mk · []) hkept

/-- An object that may be used already stays what it is. -/
theorem Constructing.again {ys : List VerificationType} {pool pool' : ConstantPool}
    {i : Instruction} {index : UInt16} (h : Constructing p e e₂ e' ks ys pool pool' i index)
    (hrests : Rests p ctx scope e) (hstatic : ctx.isStatic = false) (hp : p = .kind) :
    Moves p e e' ∧ e'.slots = ⟨e.slots.locals, []⟩ := by
  have hsame : SlotState.replaceAll ⟨e.slots.locals, []⟩ .uninitializedThis (.object index)
      = ⟨e.slots.locals, []⟩ := replaceAll_eq_self (hrests.constructed hp)
  obtain ⟨first, hfirst⟩ := hrests.usable hstatic hp rfl
  have hhead : e.slots.locals.headD .top = .object first := by
    rw [List.headD_eq_head?_getD, List.head?_eq_getElem?, hfirst]
    rfl
  have hstack : SlotState.stack ⟨e.slots.locals, flat ([] ++ e.slots.locals.headD .top :: ys)⟩
      = flat ([] ++ e.slots.locals.headD .top :: ys) := rfl
  refine ⟨h.moves ?_, by rw [h.result]; exact hsame⟩
  rw [hsame]
  exact .again hstack (Precision.holds_of_offers h.offers) (hhead ▸ .of_kind? rfl)

end Emitter

/-! ## Statements -/

namespace Emit

variable {p : Precision} {ctx : MethodContext} {usable : Bool} {scope after : TypeScope} {n : Nat}
  {e e' : Emitter} {u : Unit}

/-- A value that is dropped with the instruction for its size. -/
theorem turns_dropping {type : TypeName} {opcode : UInt8} {k : Nat} (hvoid : type.isVoid = false)
    (hk : type.slotSize = k) (hplain : Instruction.Plain ⟨opcode, .empty⟩)
    (hexit : Instruction.isUnconditionalExit ⟨opcode, .empty⟩ = false)
    (heffect : Effect.ofOpcode? opcode = some (.drop k)) :
    Turns p ctx usable scope n (do instruction opcode; pop k) none [.ofType type] [] where
  steps := ((advances_instruction hplain).bind fun _ => advances_pop) ctx
  turned := by
    intro e u e' locals base xs _ hrun _ _ hslots hxs _
    have hsize : ValueKind.slotsOf [.ofType type] = k := by
      rw [← hk, ← ValueKind.slots_ofType hvoid]
      exact Nat.add_zero _
    rw [runs_instruction_bind] at hrun
    obtain ⟨s, hpop, rfl⟩ := runs_pop.mp hrun
    have hpop' : SlotState.pop? ⟨locals, flat (base ++ xs)⟩ k = some s := hslots ▸ hpop
    obtain rfl := pop?_values hxs hsize hpop'
    have hlength := Precision.length_flat (Precision.holds_of_offers hxs)
    cases hxs with
    | @cons x _ _ _ hx hrest =>
      cases hrest
      have hslot : x.slots.length = k := by simpa [hsize] using hlength
      have hfits : Fits p e.pc (.drop k) ⟨locals, flat (base ++ [x])⟩
          ⟨locals, flat (base ++ [])⟩ := by
        rw [List.append_nil, ← hslot]
        exact .drop (s := ⟨locals, flat (base ++ [x])⟩) rfl
      have hact := Turned.act [x] [] hplain hexit (fun r _ _ => heffect) (Nat.zero_le _)
        hslots hfits (Nat.le_refl _) (Nat.le_trans (by simp) (Nat.le_max_left _ _))
      rw [List.append_nil] at hact
      exact ⟨[], .nil, hact⟩

/-- A value of a type is dropped. -/
theorem turns_dropValue (type : TypeName) :
    Turns p ctx usable scope n (dropValue type) none type.valueKinds [] := by
  cases hvoid : type.isVoid with
  | true =>
    have hsize : type.slotSize = 0 := by rw [TypeName.slotSize, if_pos hvoid]
    rw [TypeName.valueKinds, if_pos hvoid, dropValue, hsize]
    exact .pure
  | false =>
    rw [TypeName.valueKinds, if_neg (by simp [hvoid]), dropValue]
    cases hwide : type.isWide with
    | true =>
      have hsize : type.slotSize = 2 := by
        rw [TypeName.slotSize, if_neg (by simp [hvoid]), if_pos hwide]
      rw [hsize]
      exact turns_dropping hvoid hsize (plain_simple rfl) rfl rfl
    | false =>
      have hsize : type.slotSize = 1 := by
        rw [TypeName.slotSize, if_neg (by simp [hvoid]), if_neg (by simp [hwide])]
      rw [hsize]
      exact turns_dropping hvoid hsize (plain_simple rfl) rfl rfl

/-- An operand of a statement. -/
theorem turns_value {x : Expr} {k : ValueKind}
    (h : (x.type? p ctx usable scope).any (p.admits k) = true) :
    Turns p ctx usable scope n (expr .value x) none [] [k] :=
  turns_operand h fun ht => turns_expr p ctx usable scope x n .value trivial ht (by simp)

theorem passed_of_turns {x : Emit Unit} (hx : Turns p ctx true scope 0 x none [] [])
    (hrun : Runs x ctx e u e') (hsmall : e'.Small) (h : Rests p ctx scope e) :
    Passed p ctx scope e e' := by
  have hslots : e.slots = ⟨e.slots.locals, flat ([] ++ [])⟩ := h.slots_eq
  obtain ⟨ys, hys, hturned⟩ := hx.turned e u e' e.slots.locals [] [] (Nat.zero_le _) hrun hsmall
    h.toReady hslots .nil (by simp)
  cases hys
  exact h.passed hturned

/-- The value of an operand is on the stack. -/
theorem turned_of_value {x : Expr} {k : ValueKind}
    (hx : (x.type? p ctx true scope).any (p.admits k) = true)
    (hrun : Runs (expr .value x) ctx e u e')
    (hsmall : e'.Small) (h : Rests p ctx scope e) :
    ∃ y, p.Offers y k ∧ Turned p none e e' e.slots.locals [] [y] := by
  have hslots : e.slots = ⟨e.slots.locals, flat ([] ++ [])⟩ := h.slots_eq
  obtain ⟨ys, hys, hturned⟩ := (turns_value hx).turned e u e' e.slots.locals [] []
    (Nat.zero_le e.labels.size) hrun hsmall h.toReady hslots .nil (by simp)
  cases hys with
  | cons hy hrest =>
    cases hrest
    exact ⟨_, hy, hturned⟩

/-- A value is taken by an instruction behind which nothing is reached. -/
theorem passed_exitWith {x : Expr} {k : ValueKind} {opcode : UInt8} {slots : Nat}
    (hx : (x.type? p ctx true scope).any (p.admits k) = true)
    (hplain : Instruction.Plain ⟨opcode, .empty⟩)
    (hexit : Instruction.isUnconditionalExit ⟨opcode, .empty⟩ = true)
    (heffect : ∀ pool, Instruction.effect? pool ⟨opcode, .empty⟩ = some (.takes [k] []))
    (hk : k.slots = slots)
    (hrun : Runs (do expr .value x; instruction opcode; pop slots; endOfFlow) ctx e u e')
    (hsmall : e'.Small) (h : Rests p ctx scope e) : Passed p ctx scope e e' := by
  obtain ⟨_, e₁, hvalue, hrun⟩ := runs_bind.mp hrun
  have hto : Steps true 0 e₁ e' := advances_exitWith hplain ctx e₁ u e' (Nat.zero_le _) hrun
  obtain ⟨y, hy, hturned⟩ := turned_of_value hx hvalue (hsmall.of_steps hto) h
  rw [runs_instruction_bind, runs_pop_bind] at hrun
  obtain ⟨s, hpop, hrun⟩ := hrun
  have hpop' : SlotState.pop? ⟨e.slots.locals, flat ([] ++ [y])⟩ slots = some s :=
    hturned.slots ▸ hpop
  obtain rfl : s = ⟨e.slots.locals, flat []⟩ :=
    pop?_values (.cons hy .nil) (by rw [← hk]; exact Nat.add_zero _) hpop'
  have hpassed := h.passed_exit hturned (.cons hy .nil) hplain hexit heffect
  rw [runs_endOfFlow] at hrun
  exact hrun ▸ hpassed

/-- The end of a flow without a value. -/
theorem passed_return (hrun : Runs (do instruction Opcode.returnVoid; endOfFlow) ctx e u e')
    (h : Rests p ctx scope e) : Passed p ctx scope e e' := by
  have hturned : Turned p none e e e.slots.locals [] [] := .refl h.slots_eq (by simp)
  have hpassed := h.passed_exit hturned .nil (i := ⟨Opcode.returnVoid, .empty⟩)
    (plain_simple rfl) rfl fun _ => rfl
  rw [runs_instruction_bind, runs_endOfFlow] at hrun
  have hresult : e' = { e.append ⟨Opcode.returnVoid, .empty⟩ with
      slots := ⟨e.slots.locals, []⟩, reachable := false } := by
    rw [hrun, ← h.slots_eq]
    rfl
  exact hresult ▸ hpassed

theorem isUnconditionalExit_ret (k : ValueKind) :
    Instruction.isUnconditionalExit ⟨k.ret, .empty⟩ = true := by
  cases k <;> rfl

/-- A variable is declared. -/
theorem passed_declare {name : String} {type : TypeName} {value : Expr}
    (htype : p.inhabits type = true)
    (hvalue : (value.type? p ctx true scope).any (p.admits (.ofType type)) = true)
    (hrun : Runs (stmt (.declareLocal name type value)) ctx e u e') (hsmall : e'.Small)
    (h : Rests p ctx scope e) : Passed p ctx ((name, some type) :: scope) e e' := by
  rw [stmt] at hrun
  obtain ⟨_, e₁, hexpr, hrun⟩ := runs_bind.mp hrun
  rw [runs_declare_bind] at hrun
  have hto : Steps true 0 e₁ e' := .head
    (.named e₁ (e₁.nextLocal + type.slotSize)
      ({ name, slot := e₁.nextLocal, type } :: e₁.named) rfl)
    (advances_store type e₁.nextLocal ctx _ u e' (Nat.zero_le _) hrun)
  obtain ⟨y, hy, hturned⟩ := turned_of_value hvalue hexpr (hsmall.of_steps hto) h
  have hnext := hturned.same.nextLocal
  obtain ⟨⟨vt, hstored⟩, hmoves, hnamed, hnextLocal, hlabels⟩ := of_store htype
    (e := { e₁ with
      nextLocal := e₁.nextLocal + type.slotSize
      named := { name, slot := e₁.nextLocal, type } :: e₁.named })
    hturned.slots hy hsmall (fun j v hj hwide => by
      have hlt := (h.wide j v hj hwide).1
      omega) hrun
  have hstored' : Stored e e' type e.nextLocal vt := hnext ▸
    hstored.preceded hturned.moves.steps.pool hturned.same.maxLocals (by
      change e₁.slots.locals = _
      rw [hturned.slots])
  have hnamed' : e'.named = { name, slot := e.nextLocal, type } :: e.named := by
    rw [hnamed, ← hnext, ← hturned.same.named]
  exact
    { moves := (hturned.moves.tail (.named e₁ _ _)).trans hmoves
      rests := hstored'.declared h htype hnamed' (by rw [hnextLocal, ← hnext])
      grown := ⟨⟨[_], hnamed', by simp⟩, by rw [hnextLocal]; exact hnext ▸ Nat.le_add_right _ _⟩
      labels := fun m hm => by
        rw [info, hlabels]
        exact hturned.labels m hm (by simp)
      receiver := hstored'.receiver h h.entry }

/-- A variable is assigned to. -/
theorem passed_assign {name : String} {type : TypeName} {value : Expr}
    (hname : scope.type? name = some type)
    (hvalue : (value.type? p ctx true scope).any (p.admits (.ofType type)) = true)
    (hrun : Runs (stmt (.setLocal name value)) ctx e u e') (hsmall : e'.Small)
    (h : Rests p ctx scope e) : Passed p ctx scope e e' := by
  rw [stmt] at hrun
  obtain ⟨l, e₀, hfind, hrest⟩ := runs_bind.mp hrun
  obtain ⟨hl, hsame⟩ := runs_findLocal.mp hfind
  rw [hsame] at hrest
  obtain ⟨_, e₁, hexpr, hstore⟩ := runs_bind.mp hrest
  obtain ⟨rfl, hholds⟩ := h.of_find? hname hl
  have hmem : l ∈ e.named := List.mem_of_find?_eq_some hl
  have hto : Steps true 0 e₁ e' := advances_store l.type l.slot ctx e₁ u e' (Nat.zero_le _) hstore
  obtain ⟨y, hy, hturned⟩ := turned_of_value hvalue hexpr (hsmall.of_steps hto) h
  obtain ⟨⟨vt, hstored⟩, hmoves, hnamed, hnextLocal, hlabels⟩ :=
    of_store hholds.inhabits hturned.slots
    hy hsmall (fun j v hj hwide => ((h.wide j v hj hwide).2 l hmem).symm) hstore
  have hstored' : Stored e e' l.type l.slot vt :=
    hstored.preceded hturned.moves.steps.pool hturned.same.maxLocals (by rw [hturned.slots])
  have hnamed' := hnamed.trans hturned.same.named
  have hnextLocal' := hnextLocal.trans hturned.same.nextLocal
  exact
    { moves := hturned.moves.trans hmoves
      rests := hstored'.assigned h hmem hholds.inhabits hnamed' hnextLocal'
      grown := .of_same hnamed' hnextLocal'
      labels := fun m hm => by
        rw [info, hlabels]
        exact hturned.labels m hm (by simp)
      receiver := hstored'.receiver h (h.within l hmem).1 }

theorem stmt_superInit (owner : TypeName) (params : List TypeName) (args : List Expr) :
    stmt (.superInit owner params args)
      = superCall owner params (do checkCount params args; exprs .value args) := by
  rw [stmt, superCall]
  simp only [bind_assoc]

/-- The receiver is built by the constructor that it inherits, or was built before. -/
theorem passed_superInit {owner : TypeName} {params : List TypeName} {args : List Expr}
    (hparams : ∀ t ∈ params, p.declares t = true)
    (hargs : Expr.allFit p ctx true scope (params.map .ofType) args = true)
    (hrun : Runs (stmt (.superInit owner params args)) ctx e u e') (hsmall : e'.Small)
    (h : Rests p ctx scope e) : Passed p ctx scope e e' := by
  have hturns : Turns p ctx true scope 0 (do checkCount params args; exprs .value args) none []
      (params.map .ofType) :=
    (Turns.checkCount params args).bind fun _ => turns_exprs p ctx true scope args 0 hargs
  rw [stmt_superInit] at hrun
  obtain ⟨hstatic, e₂, ys, pool, pool', i, index, hway⟩ := exists_constructing h.toReady h.stack
    (fun hstatic hp => by
      obtain ⟨index, hindex⟩ := h.usable hstatic hp rfl
      exact ⟨_, hindex, .inl rfl⟩) hparams hturns hsmall hrun
  have hlabels : ∀ m, m < e.labels.size → e'.info m = e.info m := fun m hm => by
    rw [hway.result]
    exact hway.turned.labels m hm (by simp)
  by_cases hp : p = .kind
  · obtain ⟨hmoves, hslots⟩ := hway.again h hstatic hp
    exact
      { moves := hmoves
        rests := h.quiet hway.same hway.grows_pool hslots
        grown := .of_same hway.same.named hway.same.nextLocal
        labels := hlabels
        receiver := fun _ _ => by rw [hslots] }
  · obtain ⟨hmoves, hrests⟩ := hway.constructed h.toReady h.toLaid hstatic fun hk => absurd hk hp
    exact
      { moves := hmoves
        rests := hrests
        grown := .of_same hway.same.named hway.same.nextLocal
        labels := hlabels
        receiver := fun hk => absurd hk hp }

/-! ### Blocks -/

theorem of_zipWith_mergeLocal {as bs : List VerificationType} {j : Nat} {v : VerificationType}
    (ha : as[j]? = some v) (hb : bs[j]? = some v) :
    (List.zipWith SlotState.mergeLocal as bs)[j]? = some v := by
  rw [List.getElem?_zipWith_eq_some]
  exact ⟨v, v, ha, hb, by rw [SlotState.mergeLocal, if_pos rfl]⟩

/-- The label behind a block is placed, where all jumps to it come from before the block. -/
theorem meets_of_place {e₁ e₂ : Emitter} {skip : Label} (hstack : e₂.slots.stack = [])
    (hopen : Open e₂ skip ⟨e₁.slots.locals, []⟩) (hrun : Runs (place skip) ctx e₂ u e') :
    Meets e₁ e₂ e' ∧ Move p e₂ e' := by
  have hjumped : ∀ jumped, (e₂.info skip).state? = some jumped →
      jumped = ⟨e₁.slots.locals, []⟩ := by
    intro jumped hjumped
    rcases hopen.state with hnone | hsome
    · rw [hnone] at hjumped
      cases hjumped
    · exact Option.some.inj (hjumped.symm.trans hsome)
  refine ⟨?_, move_place hrun hopen.unplaced fun jumped hstate _ =>
    by rw [hjumped jumped hstate, hstack]⟩
  rcases runs_place.mp hrun with ⟨_, rfl⟩ | ⟨jumped, s, hstate, harriving, rfl⟩
  · exact ⟨⟨rfl, rfl, rfl⟩, rfl, hstack, fun _ _ _ hj => hj, fun _ _ hj => .inr (.inr hj)⟩
  · rw [hjumped jumped hstate, arriving] at harriving
    split_ifs at harriving with hreachable
    · rw [SlotState.merge_eq (by rw [hstack])] at harriving
      obtain rfl := Except.ok.inj harriving
      exact ⟨⟨rfl, rfl, rfl⟩, rfl, hstack, fun _ _ h₁ h₂ => of_zipWith_mergeLocal h₂ h₁,
        fun _ _ hj => (SlotState.getElem?_mergeLocals hj).imp_right fun h => .inr h.1⟩
    · obtain rfl := Except.ok.inj harriving
      exact ⟨⟨rfl, rfl, rfl⟩, rfl, rfl, fun _ _ h₁ _ => h₁, fun _ _ hj => .inr (.inl hj)⟩

/-- A block behind a condition: where the condition fails, the code behind the block is reached with
the local variables that it started with. -/
theorem passed_block {outer inner : TypeScope} {e₁ e₂ : Emitter} {cond : Expr}
    (hcond : Runs (expr (.jumpIfFalse e.labels.size) cond) ctx
      { e with labels := e.labels.push {} } () e₁)
    (hturns : Turns p ctx true outer (e.labels.size + 1) (expr (.jumpIfFalse e.labels.size) cond)
      (some e.labels.size) [] [])
    (hsmall : e₁.Small) (h : Rests p ctx outer e)
    (hbody : Rests p ctx outer e₁ → Passed p ctx inner e₁ e₂) (hscope : outer <:+ inner)
    (hplace : Runs (place e.labels.size) ctx e₂ u e') :
    Passed p ctx (outer.leave p inner) e e' := by
  have hsize : (e.labels.push ({} : LabelInfo)).size = e.labels.size + 1 := Array.size_push _
  have hlabelled : Rests p ctx outer { e with labels := e.labels.push {} } :=
    h.quiet ⟨rfl, rfl, rfl⟩ (ConstantPool.Grows.refl _) h.slots_eq
  have hslots : e.slots = ⟨e.slots.locals, flat ([] ++ [])⟩ := h.slots_eq
  obtain ⟨ys, hys, hturned⟩ := hturns.turned _ () e₁ e.slots.locals [] [] (Nat.le_of_eq hsize.symm)
    hcond hsmall hlabelled.toReady hslots .nil (fun l hl => by
      obtain rfl := Option.some.inj hl
      exact open_of_new (hsize ▸ Nat.lt_succ_self _)
        (by rw [info_push, info_of_le (Nat.le_refl _)]))
  cases hys
  have hlocals : e₁.slots.locals = e.slots.locals := by rw [hturned.slots]
  have hrests₁ : Rests p ctx outer e₁ :=
    hlabelled.quiet hturned.same hturned.moves.steps.pool hturned.slots
  have hpassed := hbody hrests₁
  have hopen := hturned.target _ rfl
  have hinfo := hpassed.labels e.labels.size hopen.known
  have hopen₂ : Open e₂ e.labels.size ⟨e₁.slots.locals, []⟩ := by
    rw [hlocals]
    exact ⟨Nat.lt_of_lt_of_le hopen.known hpassed.moves.steps.size_labels_le,
      hinfo ▸ hopen.unplaced, hinfo ▸ hopen.state⟩
  obtain ⟨hmeets, hmove⟩ := meets_of_place (p := p) hpassed.rests.stack hopen₂ hplace
  have hreceiver : p = .kind → ctx.isStatic = false →
      e'.slots.locals[0]? = e.slots.locals[0]? := by
    intro hp hstatic
    obtain ⟨index, hindex⟩ := hrests₁.usable hstatic hp rfl
    rw [hmeets.kept 0 _ hindex ((hpassed.receiver hp hstatic).trans hindex), ← hlocals, hindex]
  have hsame : Extends e e₁ := .of_same hturned.same.named hturned.same.nextLocal
  exact
    { moves := .head (.newLabel e) (hturned.moves.trans (hpassed.moves.tail hmove))
      rests := hmeets.rests hrests₁ hpassed.rests hpassed.grown hpassed.moves.steps.pool hscope
        hpassed.receiver
      grown := (hsame.trans hpassed.grown).trans (.of_same hmeets.same.named hmeets.same.nextLocal)
      labels := fun m hm => by
        have hm₁ : m < (e.labels.push ({} : LabelInfo)).size := hsize ▸ Nat.lt_succ_of_lt hm
        have hskip : e.labels.size ≠ m := Nat.ne_of_gt hm
        rw [info_of_place hplace hskip,
          hpassed.labels m (Nat.lt_of_lt_of_le hm₁ hturned.size_labels_le),
          hturned.labels m hm₁ (by simpa using hskip), info_push]
      receiver := hreceiver }

mutual

/-- The code of a typed statement leads from rest to rest. -/
theorem passed_stmt : (s : Stmt) → {scope after : TypeScope} → {e e' : Emitter} → {u : Unit} →
    s.typesAfter? p ctx scope = some after → Runs (stmt s) ctx e u e' → e'.Small →
    Rests p ctx scope e → Passed p ctx after e e'
  | .setField target field value, scope, after, e, e', u, hs, hrun, hsmall, h => by
    rw [Stmt.typesAfter?] at hs
    split_ifs at hs with hfits
    obtain rfl := Option.some.inj hs
    simp only [Bool.and_eq_true] at hfits
    obtain ⟨⟨htarget, hfield⟩, hvalue⟩ := hfits
    have hturns := (turns_value (n := 0) htarget).bind fun _ =>
      ((turns_value hvalue).above [.reference]).bind fun _ => turns_putField hfield
    rw [stmt] at hrun
    exact passed_of_turns hturns hrun hsmall h
  | .declareLocal name type value, scope, after, e, e', u, hs, hrun, hsmall, h => by
    rw [Stmt.typesAfter?] at hs
    split_ifs at hs with hfits
    obtain rfl := Option.some.inj hs
    rw [Bool.and_eq_true] at hfits
    exact passed_declare hfits.1 hfits.2 hrun hsmall h
  | .setLocal name value, scope, after, e, e', u, hs, hrun, hsmall, h => by
    rw [Stmt.typesAfter?] at hs
    split_ifs at hs with hfits
    obtain rfl := Option.some.inj hs
    obtain ⟨type, hname, hvalue⟩ := (Option.any_eq_true _ _).mp hfits
    exact passed_assign hname hvalue hrun hsmall h
  | .expr value, scope, after, e, e', u, hs, hrun, hsmall, h => by
    rw [Stmt.typesAfter?] at hs
    split_ifs at hs with hfits
    obtain rfl := Option.some.inj hs
    obtain ⟨type, htype⟩ := Option.isSome_iff_exists.mp hfits
    have hturns := (turns_expr p ctx true scope value 0 .value trivial htype (by simp)).bind
      fun _ =>
      Turns.typeOf_bind (Expr.valueType?_of_type? htype) (turns_dropValue type)
    rw [stmt] at hrun
    exact passed_of_turns hturns hrun hsmall h
  | .ifThen cond body, scope, after, e, e', u, hs, hrun, hsmall, h => by
    rw [Stmt.typesAfter?] at hs
    split_ifs at hs with hfits
    obtain ⟨inner, hinner, rfl⟩ := Option.map_eq_some_iff.mp hs
    obtain ⟨t, ht, hint⟩ := (Option.any_eq_true _ _).mp hfits
    rw [stmt, runs_newLabel_bind] at hrun
    obtain ⟨_, e₁, hcond, hrun⟩ := runs_bind.mp hrun
    obtain ⟨_, e₂, hbody, hplace⟩ := runs_bind.mp hrun
    have hsize : (e.labels.push ({} : LabelInfo)).size = e.labels.size + 1 := Array.size_push _
    have hto₁ : Steps true (e.labels.size + 1) { e with labels := e.labels.push {} } e₁ :=
      advances_expr cond _ (.jumpIfFalse e.labels.size) (Nat.lt_succ_self _) ctx _ _ e₁
        (Nat.le_of_eq hsize.symm) hcond
    have hto₂ := advances_stmts body 0 ctx e₁ () e₂ (Nat.zero_le _) hbody
    have hto₃ : Steps true 0 e₂ e' := steps_placeNew (hto₁.trans (advances_stmts body
      (e.labels.size + 1) ctx e₁ () e₂ (Nat.le_trans (Nat.le_of_eq hsize.symm) hto₁.size_labels_le)
      hbody)) hplace (Nat.zero_le _)
    have hsmall₂ := hsmall.of_steps hto₃
    exact passed_block hcond (turns_expr p ctx true scope cond (e.labels.size + 1)
      (.jumpIfFalse e.labels.size) (Nat.lt_succ_self _) ht fun _ => hint) (hsmall₂.of_steps hto₂) h
      (fun h₁ => passed_stmts body hinner hbody hsmall₂ h₁)
      (Stmt.suffix_of_typesAfterAll? body hinner) hplace
  | .ret none, scope, after, e, e', u, hs, hrun, hsmall, h => by
    obtain rfl := Option.some.inj hs
    rw [stmt, runs_read_bind] at hrun
    dsimp only at hrun
    split_ifs at hrun
    · obtain ⟨_, _, hfail, _⟩ := runs_bind.mp hrun
      exact absurd hfail runs_fail
    · exact passed_return hrun h
  | .ret (some value), scope, after, e, e', u, hs, hrun, hsmall, h => by
    rw [Stmt.typesAfter?] at hs
    split_ifs at hs with hfits
    obtain rfl := Option.some.inj hs
    rw [stmt, runs_read_bind] at hrun
    dsimp only at hrun
    split_ifs at hrun with hvoid
    · obtain ⟨_, _, hfail, _⟩ := runs_bind.mp hrun
      exact absurd hfail runs_fail
    · exact passed_exitWith hfits (plain_ret _) (isUnconditionalExit_ret _) (effect?_ret _)
        (ValueKind.slots_ofType (Bool.eq_false_iff.mpr hvoid)) hrun hsmall h
  | .throw value, scope, after, e, e', u, hs, hrun, hsmall, h => by
    rw [Stmt.typesAfter?] at hs
    split_ifs at hs with hfits
    obtain rfl := Option.some.inj hs
    rw [stmt] at hrun
    exact passed_exitWith hfits (plain_simple rfl) rfl (fun _ => rfl) rfl hrun hsmall h
  | .superInit owner params args, scope, after, e, e', u, hs, hrun, hsmall, h => by
    rw [Stmt.typesAfter?] at hs
    split_ifs at hs with hfits
    obtain rfl := Option.some.inj hs
    simp only [Bool.and_eq_true, List.all_eq_true] at hfits
    exact passed_superInit hfits.1.2 hfits.2 hrun hsmall h

theorem passed_stmts : (ss : List Stmt) → {scope after : TypeScope} → {e e' : Emitter} →
    {u : Unit} → Stmt.typesAfterAll? p ctx scope ss = some after → Runs (stmts ss) ctx e u e' →
    e'.Small →
    Rests p ctx scope e → Passed p ctx after e e'
  | [], scope, after, e, e', u, hs, hrun, hsmall, h => by
    obtain rfl := Option.some.inj hs
    rw [stmts] at hrun
    obtain ⟨_, rfl⟩ := runs_pure.mp hrun
    exact .refl h
  | s :: ss, scope, after, e, e', u, hs, hrun, hsmall, h => by
    rw [Stmt.typesAfterAll?] at hs
    obtain ⟨middle, hfirst, hrest⟩ := Option.bind_eq_some_iff.mp hs
    rw [stmts] at hrun
    obtain ⟨_, e₁, hcheck, hrun⟩ := runs_bind.mp hrun
    obtain ⟨_, e₂, hstmt, hstmts⟩ := runs_bind.mp hrun
    rw [checkReachable, runs_get_bind, runs_check] at hcheck
    rw [hcheck.2] at hstmt
    have hto := advances_stmts ss 0 ctx e₂ u e' (Nat.zero_le _) hstmts
    have hpassed := passed_stmt s hfirst hstmt (hsmall.of_steps hto) h
    exact hpassed.trans (passed_stmts ss hrest hstmts hsmall hpassed.rests)

end

end Emit

end ClassSynth
