import ClassSynth.Proofs.Verifier.Halves
import ClassSynth.Proofs.Verifier.Method

/-!
# Where parameters stand

The slot of a parameter is computed twice: as the number of slots before it, by the code that loads
it, and as a position in the list of all slots at the start of the method, by the frames. The two
agree.

**Slots.** Exactly the indices from one to the number of parameters have a slot
(`isSome_paramSlot?`). The receiver and the parameters fill the slots at the start of the method,
each slot once (`exists_fills_iff`, `Fills.unique`).

**Types.** At the slot of a parameter stands what represents its type, before `top` if it is wide.
The instruction that loads the parameter reads a value of its kind from this slot, and leaves on the
stack what stands there (`runs_param`).

Main result: `parameters_agree`.
-/

namespace ClassSynth

open Emit Emitter VerificationType

/-! ## Slots -/

/-- Every slot of a list of values belongs to one of them. -/
theorem exists_of_lt_totalSlots {ts : List TypeName} {j : Nat} (h : j < totalSlots ts) :
    ∃ k t, ts[k]? = some t ∧ totalSlots (ts.take k) ≤ j ∧
      j < totalSlots (ts.take k) + t.slotSize := by
  induction ts generalizing j with
  | nil => cases h
  | cons u ts ih =>
    have hcons : ∀ us, totalSlots (u :: us) = u.slotSize + totalSlots us := fun _ => rfl
    rw [hcons] at h
    rcases Nat.lt_or_ge j u.slotSize with hj | hj
    · have hnone : totalSlots ((u :: ts).take 0) = 0 := rfl
      exact ⟨0, u, rfl, by omega, by omega⟩
    · obtain ⟨k, t, hk, hfrom, hto⟩ := ih (j := j - u.slotSize) (by omega)
      refine ⟨k + 1, t, hk, ?_⟩
      rw [List.take_succ_cons, hcons]
      omega

/-- A value ends before the next ones begin. -/
theorem totalSlots_take_lt {ts : List TypeName} {k m : Nat} {t : TypeName} (hk : ts[k]? = some t)
    (hlt : k < m) : totalSlots (ts.take k) + t.slotSize ≤ totalSlots (ts.take m) := by
  have hle := totalSlots_take_add (ts.take m) (k := k) (by rwa [List.getElem?_take_of_lt hlt])
  rwa [List.take_take, Nat.min_eq_left hlt.le] at hle

namespace MethodContext

variable {ctx : MethodContext} {index slot j : Nat} {t : TypeName}

/-- What is there when a method starts: its receiver, and its parameters from one on. -/
inductive Occupant
  | receiver
  | param (index : Nat)
  deriving DecidableEq

/-- The slots of the receiver and of the parameters. -/
inductive Fills (ctx : MethodContext) : Occupant → Nat → Prop
  | receiver (h : ctx.isStatic = false) : Fills ctx .receiver 0
  | param {index slot j : Nat} {t : TypeName} (h : ctx.paramSlot? index = some (slot, t))
      (hfrom : slot ≤ j) (hto : j < slot + t.slotSize) : Fills ctx (.param index) j

/-- Parameters are counted from one. -/
theorem isSome_paramSlot? :
    (ctx.paramSlot? index).isSome = true ↔ 1 ≤ index ∧ index ≤ ctx.params.length := by
  cases index with
  | zero => simp [paramSlot?]
  | succ k =>
    rw [paramSlot?, Option.isSome_map, isSome_getElem?]
    exact ⟨fun h => ⟨Nat.le_add_left 1 k, h⟩, fun h => h.2⟩

theorem getElem?_of_paramSlot? (h : ctx.paramSlot? index = some (slot, t)) :
    ctx.params[index - 1]? = some t ∧
      slot = ctx.receiverSlots + totalSlots (ctx.params.take (index - 1)) ∧ 1 ≤ index := by
  cases index with
  | zero => cases h
  | succ k =>
    obtain ⟨u, hu, heq⟩ := Option.map_eq_some_iff.mp h
    obtain ⟨rfl, rfl⟩ := Prod.mk.inj heq
    exact ⟨hu, rfl, Nat.le_add_left 1 k⟩

theorem receiverSlots_eq_one (h : ctx.isStatic = false) : ctx.receiverSlots = 1 := by
  rw [receiverSlots, if_neg (by simp [h])]

theorem Fills.lt_entrySize {o : Occupant} (h : ctx.Fills o j) : j < ctx.entrySize := by
  cases h with
  | receiver h => exact entrySize_pos h
  | param h _ hto => exact hto.trans_le (paramSlot?_le h)

/-- Nothing is left out between the receiver and the parameters, and behind them. -/
theorem exists_fills (h : j < ctx.entrySize) : ∃ o, ctx.Fills o j := by
  rcases Nat.lt_or_ge j ctx.receiverSlots with hj | hj
  · cases hstatic : ctx.isStatic with
    | true => simp [receiverSlots, hstatic] at hj
    | false =>
      obtain rfl : j = 0 := Nat.lt_one_iff.mp (receiverSlots_eq_one hstatic ▸ hj)
      exact ⟨.receiver, .receiver hstatic⟩
  · have hparams : j - ctx.receiverSlots < totalSlots ctx.params := by
      rw [entrySize] at h
      omega
    obtain ⟨k, t, hk, hfrom, hto⟩ := exists_of_lt_totalSlots hparams
    have hslot : ctx.paramSlot? (k + 1)
        = some (ctx.receiverSlots + totalSlots (ctx.params.take k), t) := by
      rw [paramSlot?, hk]
      rfl
    exact ⟨.param (k + 1), .param hslot (by omega) (by omega)⟩

theorem exists_fills_iff : (∃ o, ctx.Fills o j) ↔ j < ctx.entrySize :=
  ⟨fun ⟨_, h⟩ => h.lt_entrySize, exists_fills⟩

/-- No slot belongs to two. -/
theorem Fills.unique {o o' : Occupant} (h : ctx.Fills o j) (h' : ctx.Fills o' j) : o = o' := by
  cases h with
  | receiver hstatic =>
    cases h' with
    | receiver => rfl
    | param hslot hfrom _ =>
      obtain ⟨_, rfl, _⟩ := getElem?_of_paramSlot? hslot
      rw [receiverSlots_eq_one hstatic] at hfrom
      omega
  | @param index _ _ _ hslot hfrom hto =>
    obtain ⟨hk, rfl, hpos⟩ := getElem?_of_paramSlot? hslot
    cases h' with
    | receiver hstatic =>
      rw [receiverSlots_eq_one hstatic] at hfrom
      omega
    | @param index' _ _ _ hslot' hfrom' hto' =>
      obtain ⟨hk', rfl, hpos'⟩ := getElem?_of_paramSlot? hslot'
      rcases Nat.lt_trichotomy (index - 1) (index' - 1) with hlt | heq | hlt
      · have hle := totalSlots_take_lt hk hlt
        omega
      · rw [show index = index' by omega]
      · have hle := totalSlots_take_lt hk' hlt
        omega

end MethodContext

/-! ## Types -/

namespace Emitter.Starts

variable {ctx : MethodContext} {e : Emitter} {receiver vts : List VerificationType}

theorem locals_eq_flat (h : Starts ctx e receiver vts) :
    e.slots.locals = flat (receiver ++ vts) := by
  have hreceiver : flat receiver = receiver := by
    rcases h.receiver with ⟨_, rfl⟩ | ⟨_, _, rfl⟩ | ⟨_, _, _, rfl⟩ <;> rfl
  rw [h.locals, flat_append, hreceiver]

theorem top_notMem (h : Starts ctx e receiver vts) : top ∉ receiver ++ vts := by
  rw [List.mem_append]
  rintro (hmem | hmem)
  · rcases h.receiver with ⟨_, rfl⟩ | ⟨_, _, rfl⟩ | ⟨_, _, _, rfl⟩ <;> simp at hmem
  · obtain ⟨k, hk, heq⟩ := List.mem_iff_getElem.mp hmem
    have hkind := (h.params.get (h.params.length_eq ▸ hk) hk).kind?
    rw [List.get_eq_getElem, heq] at hkind
    cases hkind

/-- A frame at the start of the method lists the receiver and then one value for each parameter. -/
theorem localsOfSlots_eq (h : Starts ctx e receiver vts) :
    localsOfSlots e.slots.locals = receiver ++ vts := by
  rw [h.locals_eq_flat, localsOfSlots_flat h.top_notMem]

/-- A parameter stands at its slot, and fills the next one too if it is wide. -/
theorem getElem?_param (h : Starts ctx e receiver vts)
    (hvalues : ∀ t ∈ ctx.params, t.isVoid = false) {index slot : Nat} {t : TypeName}
    (hslot : ctx.paramSlot? index = some (slot, t)) :
    ∃ vt, Represents e.pool t vt ∧ e.slots.locals[slot]? = some vt ∧
      (t.isWide = true → e.slots.locals[slot + 1]? = some .top) := by
  obtain ⟨hk, rfl, _⟩ := MethodContext.getElem?_of_paramSlot? hslot
  obtain ⟨vt, hvt, hget⟩ := getElem?_flat_represents h.params hvalues hk
  have hstands : e.slots.locals[ctx.receiverSlots + totalSlots (ctx.params.take (index - 1))]?
      = some vt := by
    rw [h.locals, ← h.length_receiver, List.getElem?_append_right (Nat.le_add_right _ _),
      Nat.add_sub_cancel_left, hget]
  refine ⟨vt, hvt, hstands, fun hwide => ?_⟩
  have hpaired : Paired e.slots.locals := h.locals_eq_flat ▸ paired_flat _
  exact hpaired _ vt hstands (hvt.isWide.trans hwide)

end Emitter.Starts

namespace Emit

variable {ctx : MethodContext} {pool : ConstantPool}

/-- The code of a parameter, where its type has a representation: one instruction, and what it
represents on the stack. -/
theorem runs_param {e : Emitter} {index slot : Nat} {t : TypeName} {vt : VerificationType}
    (hslot : ctx.paramSlot? index = some (slot, t)) (hvoid : t.isVoid = false)
    (hvt : Represents e.pool t vt) :
    Runs (expr .value (.param index)) ctx e ()
      ((e.append (loadForm (.ofType t) slot)).pushed vt) := by
  rw [expr, runs_read_bind, hslot]
  refine runs_bind.mpr ⟨(), _, ?_, runs_pure.mpr ⟨rfl, rfl⟩⟩
  refine runs_bind.mpr ⟨(), _, runs_slotInstruction.mpr rfl, ?_⟩
  refine runs_pushType.mpr (.inr ⟨hvoid, ?_⟩)
  have hrun : (verificationType t).run e.pool = (vt, e.pool) := hvt
  change _ = ({ e.append _ with pool := ((verificationType t).run e.pool).2 } : Emitter).pushed
    ((verificationType t).run e.pool).1
  rw [hrun]
  rfl

/-- Exactly the indices from one to the number of parameters have slots. The receiver and the
parameters fill the slots at the start of a method, each slot once. At the slot of a parameter
stands what represents its type, before `top` if it is wide; the code of the parameter, wherever it
stands in the method, is one instruction that loads a value of this kind from this slot and leaves
the same on the stack. A frame at the start lists the receiver, and one value for each parameter. -/
theorem parameters_agree (ctx : MethodContext) (pool : ConstantPool)
    (hvalues : ∀ t ∈ ctx.params, t.isVoid = false) (hfit : ctx.entrySize ≤ 65536) :
    (∀ index, (ctx.paramSlot? index).isSome = true ↔ 1 ≤ index ∧ index ≤ ctx.params.length) ∧
    (∀ j, j < (start ctx pool).entry.length ↔ ∃ o, ctx.Fills o j) ∧
    (∀ j o o', ctx.Fills o j → ctx.Fills o' j → o = o') ∧
    (∀ index slot t, ctx.paramSlot? index = some (slot, t) →
      ctx.params[index - 1]? = some t ∧
      ∃ vt, Represents (start ctx pool).pool t vt ∧
        (start ctx pool).entry[slot]? = some vt ∧ vt.kind? = some (.ofType t) ∧
        (t.isWide = true → (start ctx pool).entry[slot + 1]? = some .top) ∧
        (∀ r, (loadForm (.ofType t) slot).effect? r = some (.load (.ofType t) slot)) ∧
        ∀ e : Emitter, (start ctx pool).pool.Grows e.pool →
          Runs (expr .value (.param index)) ctx e ()
            ((e.append (loadForm (.ofType t) slot)).pushed vt)) ∧
    ∃ receiver vts, Starts ctx (start ctx pool) receiver vts ∧
      (ctx.entryLocals.run pool).1 = receiver ++ vts := by
  obtain ⟨receiver, vts, hstarts⟩ := exists_starts ctx pool
  have hlength : (start ctx pool).entry.length = ctx.entrySize :=
    MethodContext.length_entry hvalues pool
  refine ⟨fun _ => MethodContext.isSome_paramSlot?,
    fun j => by rw [hlength, MethodContext.exists_fills_iff],
    fun _ _ _ h h' => h.unique h', fun index slot t hslot => ?_, receiver, vts, hstarts,
    hstarts.localsOfSlots_eq⟩
  obtain ⟨hk, _⟩ := MethodContext.getElem?_of_paramSlot? hslot
  have hvoid := hvalues t (List.mem_of_getElem? hk)
  have hend := MethodContext.paramSlot?_le hslot
  have hpos : 0 < t.slotSize := by
    rw [TypeName.slotSize, if_neg (by simp [hvoid])]
    split_ifs <;> decide
  obtain ⟨vt, hvt, hget, hwide⟩ := hstarts.getElem?_param hvalues hslot
  exact ⟨hk, vt, hvt, hget, hvt.kind?, hwide, fun r => effect?_loadForm _ (by omega) r,
    fun e hpool => runs_param hslot hvoid (hvt.grows hpool)⟩

/-- A static method whose first parameter is wide. -/
def gauge : MethodContext :=
  { className := ⟨"demo.Gauge"⟩, params := [⟨"double"⟩, .int], ret := .void, isStatic := true }

theorem parameters_agree_gauge :
    (∀ t ∈ gauge.params, t.isVoid = false) ∧ gauge.entrySize ≤ 65536 ∧
      gauge.paramSlot? 1 = some (0, ⟨"double"⟩) ∧ gauge.paramSlot? 2 = some (2, .int) ∧
      gauge.paramSlot? 3 = none ∧
      ∃ vt, Represents (start gauge .empty).pool ⟨"double"⟩ vt ∧
        (start gauge .empty).entry[0]? = some vt ∧ (start gauge .empty).entry[1]? = some .top := by
  have hvalues : ∀ t ∈ gauge.params, t.isVoid = false := by decide
  have hfit : gauge.entrySize ≤ 65536 := by decide
  obtain ⟨hsome, _, _, hparams, _⟩ := parameters_agree gauge .empty hvalues hfit
  have hfirst : gauge.paramSlot? 1 = some (0, ⟨"double"⟩) := by decide
  obtain ⟨_, vt, hvt, hget, _, hwide, _⟩ := hparams 1 0 ⟨"double"⟩ hfirst
  have hthird : ¬ (gauge.paramSlot? 3).isSome = true := fun h => by
    obtain ⟨_, hle⟩ := (hsome 3).mp h
    exact absurd hle (by decide)
  exact ⟨hvalues, hfit, hfirst, by decide, Option.not_isSome_iff_eq_none.mp hthird, vt, hvt, hget,
    hwide (by decide)⟩

end Emit

end ClassSynth
