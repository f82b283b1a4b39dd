import ClassSynth.Proofs.Verifier.Turns

/-!
# Small pieces of lowering

What each small piece of lowering takes from the stack and leaves there: loads, numbers, members,
calls, tests and jumps. A condition whose value is wanted leaves a number, on every way through it
(`turns_condition`).
-/

namespace ClassSynth

open Emit Emitter VerificationType

/-- The label that a destination jumps to. -/
def Destination.label? : Destination → Option Label
  | .value => none
  | .jumpIfFalse l => some l

/-- What a destination leaves of the values that get there. -/
def Destination.leaves : Destination → List ValueKind → List ValueKind
  | .value, ks => ks
  | .jumpIfFalse _, _ => []

theorem Precision.same_symm {p : Precision} {k l : ValueKind} (h : p.same k l = true) :
    p.same l k = true := by
  cases p with
  | width =>
    have hwide : k.isWide = l.isWide := by simpa [same] using h
    simp [same, hwide]
  | kind =>
    have hkind : k = l := by simpa [same] using h
    simp [same, hkind]

/-- The one kind of the values of a type that can stand where a kind is wanted. -/
theorem Precision.alike_of_admits {p : Precision} {t : TypeName} {k : ValueKind}
    (h : p.admits k t = true) :
    List.Forall₂ (fun k l => p.same k l = true) t.valueKinds [k] := by
  obtain ⟨hvoid, hsame⟩ := Precision.admits_iff.mp h
  rw [TypeName.valueKinds, if_neg (by simp [hvoid])]
  exact .cons hsame .nil

theorem TypeName.valueKinds_of_inhabits {p : Precision} {t : TypeName} (h : p.inhabits t = true) :
    t.valueKinds = [.ofType t] := by
  rw [valueKinds, if_neg (by simp [Precision.isVoid_of_inhabits h])]

theorem TypeName.valueKinds_of_isReference {t : TypeName} (h : t.isReference = true) :
    t.valueKinds = [.reference] := by
  simp only [isReference, isPrimitive, Bool.and_eq_true, Bool.not_eq_true',
    Option.isSome_eq_false_iff, Option.isNone_iff_eq_none] at h
  rw [valueKinds, if_neg (by simp [h.2]), ValueKind.ofType, h.1]
  rfl

namespace Emitter

variable {p : Precision} {ctx : MethodContext} {usable : Bool} {scope : TypeScope}
  {e e' : Emitter} {locals base xs : List VerificationType} {u : Unit}

/-- An instruction after which one value is pushed. -/
theorem Turned.push (effect : Effect) {i : Instruction} {vt : VerificationType} (hplain : i.Plain)
    (hexit : i.isUnconditionalExit = false) (hmeans : e.Means i effect)
    (hend : effect.localsEnd ≤ e.maxLocals) (hslots : e.slots = ⟨locals, flat base⟩)
    (hfits : Fits p e.pc effect ⟨locals, flat base⟩ ⟨locals, flat (base ++ [vt])⟩) :
    Turned p none e ((e.append i).pushed vt) locals base [vt] := by
  have hact := Turned.act [] [vt] hplain hexit hmeans hend (by rw [hslots, List.append_nil])
    (by rwa [List.append_nil]) (Nat.le_max_left e.maxStack (flat (base ++ [vt])).length)
    (Nat.le_trans (Nat.le_max_right _ _) (Nat.le_max_right _ _))
  have hsame : { e.append i with slots := ⟨locals, flat base⟩ } = e.append i := by
    rw [← hslots]
    rfl
  rw [← hsame, pushed_eq]
  exact hact

/-! ## Loads -/

theorem runs_loadThis : Runs loadThis ctx e u e' ↔ ctx.isStatic = false ∧
    e' = (e.append ⟨Opcode.aload0, .empty⟩).pushed (e.slots.locals.headD .top) := by
  unfold loadThis
  rw [runs_read_bind]
  cases ctx.isStatic with
  | true => simp [runs_bind]
  | false =>
    simp only [Bool.false_eq_true, if_false, runs_instruction_bind, runs_get_bind, runs_push,
      true_and]
    rfl

/-- The receiver is loaded, also before a constructor was called on it. -/
theorem turned_loadThis (hready : Ready p ctx usable scope e)
    (hslots : e.slots = ⟨locals, flat base⟩)
    (hreceiver : p = .kind → ∃ t, e.slots.locals[0]? = some t ∧
      (t.kind? = some .reference ∨ t.isRaw = true))
    (hrun : Runs loadThis ctx e u e') :
    Turned p none e e' locals base [locals.headD .top] := by
  obtain ⟨hstatic, rfl⟩ := runs_loadThis.mp hrun
  obtain ⟨hend, hwide⟩ := hready.receiver hstatic
  have hlocals : e.slots.locals = locals := by rw [hslots]
  rw [hlocals] at hwide hreceiver ⊢
  refine Turned.push (.load .reference 0) (plain_simple rfl) rfl (fun r _ _ => rfl) hend hslots
    (.load (s := ⟨locals, flat base⟩) rfl hwide fun hp => ?_)
  obtain ⟨t, ht, hkind⟩ := hreceiver hp
  have hhead : locals.headD .top = t := by
    rw [List.headD_eq_head?_getD, List.head?_eq_getElem?, ht]
    rfl
  rw [hhead]
  exact ⟨ht, hkind.imp_right fun hraw => ⟨hraw, rfl⟩⟩

theorem turned_load {type : TypeName} {slot : Nat} (htype : HoldsType p e type slot)
    (hsmall : e.Small) (hslots : e.slots = ⟨locals, flat base⟩)
    (hrun : Runs (load type slot) ctx e u e') :
    ∃ ys, Gives e'.pool type ys ∧ Turned p none e e' locals base ys := by
  unfold load at hrun
  obtain ⟨_, e₁, hslot, hrun⟩ := runs_bind.mp hrun
  obtain rfl := runs_slotInstruction.mp hslot
  have hvoid := Precision.isVoid_of_inhabits htype.inhabits
  have hbound := htype.bound
  have hle : slot ≤ 65535 := by
    have hmax := hsmall.locals
    omega
  have hend : (Effect.load (.ofType type) slot).localsEnd ≤ e.maxLocals := by
    change slot + (ValueKind.ofType type).slots ≤ _
    rwa [ValueKind.slots_ofType hvoid]
  refine turned_pushType [] (.load (.ofType type) slot) (plain_loadForm _ _)
    (isUnconditionalExit_loadForm _ _) (fun r _ _ => effect?_loadForm _ hle r) hend
    (by rw [hslots, List.append_nil]) ?_
    (by rwa [with_slots_eq (by rw [List.append_nil]; exact hslots)])
  intro ys pool hpool hgives
  obtain ⟨hvoid', _⟩ | ⟨_, vt, hvt, rfl⟩ := hgives
  · rw [hvoid] at hvoid'
    cases hvoid'
  rw [List.append_nil]
  refine .load (s := ⟨locals, flat base⟩) rfl (isWide_of_kind? hvt.kind?) fun hp => ?_
  obtain ⟨old, hold, hget⟩ := htype.value hp
  obtain rfl := (hold.grows hpool).eq hvt
  rw [hslots] at hget
  exact ⟨hget, .inl hvt.kind?⟩

/-- The variables of a scope are found by their names. -/
theorem of_lookup_of_find? {R : TypeName → NamedLocal → Prop} {scope : TypeScope}
    {named : List NamedLocal} (h : List.Forall₂
      (fun v l => v.1 = l.name ∧ ∀ t, v.2 = some t → R t l) scope named)
    {name : String} {type : TypeName} {l : NamedLocal}
    (hname : scope.lookup name = some (some type))
    (hl : named.find? (·.name == name) = some l) : R type l := by
  induction h with
  | nil => cases hl
  | @cons v l' vs ls hv _ ih =>
    obtain ⟨first, declared⟩ := v
    obtain ⟨rfl, hv⟩ := hv
    rw [List.lookup_cons] at hname
    rw [List.find?_cons] at hl
    by_cases hsame : l'.name = name
    · simp only [hsame, beq_self_eq_true] at hname hl
      obtain rfl := Option.some.inj hl
      exact hv type (Option.some.inj hname)
    · have h₁ : (name == l'.name) = false := beq_false_of_ne (Ne.symm hsame)
      have h₂ : (l'.name == name) = false := beq_false_of_ne hsame
      simp only [h₁, h₂] at hname hl
      exact ih hname hl

/-- A name in scope stands for a local variable of its type. -/
theorem Ready.of_find? (h : Ready p ctx usable scope e) {name : String} {type : TypeName}
    {l : NamedLocal} (hname : scope.type? name = some type)
    (hl : e.named.find? (·.name == name) = some l) : l.type = type ∧ HoldsType p e type l.slot :=
  of_lookup_of_find? h.named (Option.join_eq_some_iff.mp hname) hl

/-! ## Numbers -/

theorem turned_pushInt {value : Int32} (hslots : e.slots = ⟨locals, flat base⟩)
    (hrun : Runs (pushInt value) ctx e u e') : Turned p none e e' locals base [.integer] := by
  have hfits : Fits p e.pc (.takes [] [.int]) ⟨locals, flat base⟩
      ⟨locals, flat (base ++ [.integer])⟩ :=
    .takes (s := ⟨locals, flat base⟩) (by rw [List.append_nil]) .nil
      (.cons ⟨.of_kind? rfl, fun _ => by decide⟩ .nil)
  rcases runs_pushInt.mp hrun with ⟨i, hi, rfl⟩ | ⟨_, rfl⟩
  · exact Turned.push _ (plain_numberForm hi) (isUnconditionalExit_numberForm hi)
      (fun r _ _ => effect?_numberForm hi r) (Nat.zero_le _) hslots hfits
  · have hpool := e.pool.grows_add (.integer value)
    have hconstants : Turned p none e { e with pool := (e.pool.add (.integer value)).2 } locals base
        [] := Turned.constants hpool (by rw [hslots, List.append_nil])
    refine hconstants.trans (Turned.push _ (plain_constantForm _)
      (isUnconditionalExit_constantForm _) ?_ (Nat.zero_le _) hslots hfits)
    intro r hr hindexable
    exact effect?_constantForm (ConstantPool.get?_add hr hindexable)

/-! ## Jumps -/

theorem joined_of_open {l : Label} {s : SlotState} (h : Open e l s) :
    joined (e.info l) s = .ok s := by
  rw [joined]
  rcases h.state with hnone | hsome
  · rw [hnone]
  · rw [hsome]
    exact SlotState.merge_self s

/-- A jump carries what stands below its operands. -/
theorem turned_branch {opcode : UInt8} {l : Label} {k : Nat} {ks : List ValueKind}
    (heffect : Effect.ofBranchOpcode? opcode = some (.takes ks []))
    (hk : ValueKind.slotsOf ks = k) (hslots : e.slots = ⟨locals, flat (base ++ xs)⟩)
    (hxs : List.Forall₂ p.Offers xs ks) (hopen : Open e l ⟨locals, flat base⟩)
    (hrun : Runs (branch opcode l k) ctx e u e') :
    e' = jumpTo { e with slots := ⟨locals, flat base⟩ } opcode l ⟨locals, flat base⟩ ∧
      Turned p (some l) e e' locals base [] := by
  obtain ⟨s, joint, hpop, hjoint, rfl⟩ := runs_branch.mp hrun
  rw [hslots] at hpop
  obtain rfl := pop?_values hxs hk hpop
  rw [joined_of_open hopen] at hjoint
  obtain rfl := Except.ok.inj hjoint
  obtain ⟨hshape, hexit⟩ := shape_of_branch heffect l
  have hfits : Fits p e.pc (.takes ks []) e.slots { e.slots with stack := flat (base ++ []) } :=
    .takes (by rw [hslots]) (Precision.holds_of_offers hxs) .nil
  rw [List.append_nil, hslots] at hfits
  refine ⟨rfl, ?_⟩
  exact
    { moves := .single (.jump e opcode l ks ⟨locals, flat base⟩ hshape hexit heffect
        (by rw [hslots]; exact hfits) hopen.known hopen.unplaced hopen.state)
      same := ⟨rfl, rfl, rfl⟩
      slots := by rw [List.append_nil]; rfl
      labels := fun m _ hm => by
        have hlm : l ≠ m := fun hlm => hm (congrArg some hlm)
        rw [info, jumpTo, getD_setIfInBounds, if_neg (fun h => hlm h.1), info]
      target := fun m hm => by
        obtain rfl := Option.some.inj hm
        exact ⟨by simpa [jumpTo] using hopen.known,
          (placement_jumpTo { e with slots := ⟨locals, flat base⟩ } opcode l _ l).trans
            hopen.unplaced,
          .inr (state_jumpTo { e with slots := ⟨locals, flat base⟩ } opcode _ hopen.known)⟩ }

end Emitter

namespace Emit

variable {α : Type} {p : Precision} {ctx : MethodContext} {usable : Bool} {scope : TypeScope}
  {n : Nat} {ks : List ValueKind}

theorem turns_branch {opcode : UInt8} {l : Label} {k : Nat} (hl : l < n)
    (heffect : Effect.ofBranchOpcode? opcode = some (.takes ks []))
    (hk : ValueKind.slotsOf ks = k) :
    Turns p ctx usable scope n (branch opcode l k) (some l) ks [] where
  steps := advances_branch (shape_of_branch heffect l).1 hl ctx
  turned := by
    intro e u e' locals base xs _ hrun _ _ hslots hxs htarget
    exact ⟨[], .nil, (turned_branch heffect hk hslots hxs (htarget l rfl) hrun).2⟩

/-- A value gets to its destination. -/
theorem Turns.settled {x : Emit α} {dest : Destination} {type : TypeName}
    (hx : Turns p ctx usable scope n x none [] type.valueKinds) (hdest : dest.Within n)
    (htype : dest ≠ .value → p.admits .int type = true) :
    Turns p ctx usable scope n (x >>= fun _ => settle dest) dest.label? []
      (dest.leaves type.valueKinds) := by
  cases dest with
  | value => exact hx.bind fun _ => .pure
  | jumpIfFalse l =>
    have hint := Precision.alike_of_admits (htype (by simp))
    exact (hx.of_none.alike hint).bind fun _ => turns_branch hdest rfl rfl

theorem turns_loadThis {type : TypeName} (husable : usable = true)
    (htype : type.isReference = true) :
    Turns p ctx usable scope n loadThis none [] type.valueKinds where
  steps := advances_loadThis ctx
  turned := by
    intro e u e' locals base xs _ hrun _ hready hslots hxs _
    cases hxs
    rw [List.append_nil] at hslots
    have hlocals : e.slots.locals = locals := by rw [hslots]
    have hstatic := (runs_loadThis.mp hrun).1
    have hturned := turned_loadThis hready hslots (fun hp => by
      obtain ⟨index, hindex⟩ := hready.usable hstatic hp husable
      exact ⟨_, hindex, .inl rfl⟩) hrun
    refine ⟨_, ?_, hturned⟩
    rw [TypeName.valueKinds_of_isReference htype]
    refine .cons ⟨?_, ?_⟩ .nil
    · cases p with
      | width => exact hlocals ▸ (hready.receiver hstatic).2
      | kind =>
        obtain ⟨index, hindex⟩ := hready.usable hstatic rfl husable
        rw [hlocals] at hindex
        rw [List.headD_eq_head?_getD, List.head?_eq_getElem?, hindex]
        rfl
    · intro offset hraw
      cases hlist : locals with
      | nil =>
        rw [hlist] at hraw
        cases hraw
      | cons t rest =>
        rw [hlist] at hraw
        refine hready.built offset ?_
        rw [hlocals, hlist, ← hraw]
        exact List.mem_cons_self

theorem turns_load {type : TypeName} {slot : Nat}
    (h : ∀ e, Ready p ctx usable scope e → HoldsType p e type slot) :
    Turns p ctx usable scope n (load type slot) none [] type.valueKinds where
  steps := advances_load type slot ctx
  turned := by
    intro e u e' locals base xs hn hrun hsmall hready hslots hxs _
    cases hxs
    rw [List.append_nil] at hslots
    have hto : Steps false n e e' := advances_load type slot ctx e u e' hn hrun
    obtain ⟨ys, hgives, hturned⟩ := turned_load (h e hready) (hsmall.of_steps hto) hslots hrun
    exact ⟨ys, hgives.offers, hturned⟩

/-- A variable may be taken for one of an alike type. -/
theorem turns_localVar {name : String} {declared type : TypeName}
    (hname : scope.type? name = some declared) (htype : p.admits (.ofType declared) type = true) :
    Turns p ctx usable scope n (do let l ← findLocal name; load l.type l.slot) none []
      type.valueKinds where
  steps := ((advances_findLocal name).bind fun l => advances_load l.type l.slot) ctx
  turned := by
    intro e u e' locals base xs hn hrun hsmall hready hslots hxs _
    cases hxs
    rw [List.append_nil] at hslots
    obtain ⟨l, e₁, hfind, hload⟩ := runs_bind.mp hrun
    obtain ⟨hl, rfl⟩ := runs_findLocal.mp hfind
    obtain ⟨rfl, hholds⟩ := hready.of_find? hname hl
    have hto : Steps false n e₁ e' := advances_load l.type l.slot ctx e₁ u e' hn hload
    obtain ⟨ys, hgives, hturned⟩ := turned_load hholds (hsmall.of_steps hto) hslots hload
    obtain ⟨hvoid, hsame⟩ := Precision.admits_iff.mp htype
    have hys := hgives.offers (p := p)
    rw [TypeName.valueKinds_of_inhabits hholds.inhabits] at hys
    rw [TypeName.valueKinds, if_neg (by simp [hvoid])]
    exact ⟨ys, Precision.offers_of_alike hys (.cons (Precision.same_symm hsame) .nil), hturned⟩

theorem turns_pushInt (value : Int32) :
    Turns p ctx usable scope n (pushInt value) none [] [.int] where
  steps := advances_pushInt value ctx
  turned := by
    intro e u e' locals base xs _ hrun _ _ hslots hxs _
    cases hxs
    rw [List.append_nil] at hslots
    exact ⟨_, .cons (.of_kind? rfl) .nil, turned_pushInt hslots hrun⟩

theorem valueKinds_null : TypeName.null.valueKinds = [.reference] := by decide

theorem valueKinds_string : TypeName.string.valueKinds = [.reference] := by decide

theorem turns_null :
    Turns p ctx usable scope n (do instruction Opcode.aconstNull; push .null) none []
      TypeName.null.valueKinds where
  steps := ((advances_instruction).bind fun _ => advances_push) ctx
  turned := by
    intro e u e' locals base xs _ hrun _ _ hslots hxs _
    cases hxs
    rw [List.append_nil] at hslots
    rw [runs_instruction_bind, runs_push] at hrun
    subst hrun
    exact ⟨_, valueKinds_null ▸ .cons (.of_kind? rfl) .nil, Turned.push .null (plain_simple rfl) rfl
      (fun _ _ _ => rfl) (Nat.zero_le _) hslots (.null (s := ⟨locals, flat base⟩) rfl)⟩

theorem turns_string (text : String) :
    Turns p ctx usable scope n
      (do loadConstant (← addConstants (ConstantPool.addString text)); pushType .string) none []
      TypeName.string.valueKinds where
  steps := ((advances_addConstants (ConstantPool.adds_string text)).bind fun _ =>
    (advances_loadConstant _).bind fun _ => advances_pushType _) ctx
  turned := by
    intro e u e' locals base xs _ hrun _ _ hslots hxs _
    obtain ⟨index, pool, hpool, hadded, hrun⟩ := exists_of_adds (ConstantPool.adds_string text) hrun
    obtain ⟨_, e₁, hload, hrun⟩ := runs_bind.mp hrun
    obtain rfl := runs_loadConstant.mp hload
    obtain ⟨ys, hgives, hturned⟩ := turned_takes (e := { e with pool }) (plain_constantForm _)
      (isUnconditionalExit_constantForm _) (fun r hr hindexable => by
        obtain ⟨_, hget, _⟩ := hadded r hr hindexable
        rw [valueKinds_string]
        exact effect?_constantForm hget) hslots hxs (.inr (by cases p <;> decide))
      (Replaces.pushType .string) hrun
    exact ⟨ys, hgives.offers, (Turned.constants hpool hslots).trans hturned⟩

end Emit

end ClassSynth
