import ClassSynth.Proofs.Verifier.Pieces

/-!
# Tests and conditions

A test takes its operands and jumps with what stood below them. A condition whose value is wanted
leaves a number on every way through it: the stacks of both ways are the same where they join, also
where one of the ways is never taken (`turns_condition`).
-/

namespace ClassSynth

open Emit Emitter VerificationType

namespace Emit

variable {p : Precision} {ctx : MethodContext} {usable : Bool} {scope : TypeScope} {n : Nat}

/-! ## Tests -/

theorem valueKinds_int : TypeName.int.valueKinds = [.int] := by decide

theorem turns_arith (op : ArithOp) :
    Turns p ctx usable scope n (do
      instruction (arithOpcode op)
      pop 2
      push .integer) none [.int, .int] TypeName.int.valueKinds := by
  refine turns_instruction .int (plain_arith op) (by cases op <;> rfl) (fun _ => ?_)
    (.inr (by cases p <;> decide)) (.pop_bind rfl .pushInteger)
  rw [valueKinds_int]
  cases op <;> rfl

theorem turns_nullJump (op : CompareOp) {l : Label} (hl : l < n) :
    Turns p ctx usable scope n (nullJump op l) (some l) [.reference] [] := by
  cases op <;> exact turns_branch hl rfl rfl

/-- The instruction that compares two wide or fractional numbers. -/
def compareOpcode (t : TypeName) : UInt8 :=
  match t.primitive? with
  | some .long => Opcode.lcmp
  | some .float => Opcode.fcmpl
  | _ => Opcode.dcmpl

theorem compareJump_number {op : CompareOp} {t : TypeName} (href : t.isReference = false)
    (hint : t.isIntLike = false) (l : Label) :
    compareJump op t l = (do
      instruction (compareOpcode t)
      pop (2 * t.slotSize)
      push .integer
      branch (if op = .eq then Opcode.ifne else Opcode.ifeq) l 1) := by
  unfold compareJump compareOpcode
  rw [href, hint]
  rfl

theorem turns_compareJump (op : CompareOp) {t : TypeName} {l : Label} (hl : l < n)
    (hvoid : t.isVoid = false) :
    Turns p ctx usable scope n (compareJump op t l) (some l) [.ofType t, .ofType t] [] := by
  cases hprimitive : t.primitive? with
  | none =>
    have href : t.isReference = true := by
      simp [TypeName.isReference, TypeName.isPrimitive, hprimitive, hvoid]
    have hkind : ValueKind.ofType t = .reference := by rw [ValueKind.ofType, hprimitive]; rfl
    rw [hkind, compareJump, if_pos href]
    cases op <;> exact turns_branch hl rfl rfl
  | some primitive =>
    have href : t.isReference = false := by
      simp [TypeName.isReference, TypeName.isPrimitive, hprimitive]
    have hkind : ValueKind.ofType t = .ofPrimitive primitive := by
      rw [ValueKind.ofType, hprimitive]
      rfl
    cases hint : primitive.isIntLike with
    | true =>
      have hint' : t.isIntLike = true := by simpa [TypeName.isIntLike, hprimitive] using hint
      have hkind' : ValueKind.ofPrimitive primitive = .int := by
        revert hint
        cases primitive <;> decide
      rw [hkind, hkind', compareJump, href, hint', if_neg Bool.false_ne_true, if_pos rfl]
      cases op <;> exact turns_branch hl rfl rfl
    | false =>
      have hint' : t.isIntLike = false := by simpa [TypeName.isIntLike, hprimitive] using hint
      have hslots : ValueKind.slotsOf [.ofType t, .ofType t] = 2 * t.slotSize := by
        rw [← ValueKind.slots_ofType hvoid, ValueKind.slotsOf]
        simp
        omega
      have hcases : primitive = .long ∨ primitive = .float ∨ primitive = .double := by
        revert hint
        cases primitive <;> decide
      have hnumber : Turns p ctx usable scope n (do
          instruction (compareOpcode t)
          pop (2 * t.slotSize)
          push .integer) none [.ofType t, .ofType t] TypeName.int.valueKinds := by
        rw [compareOpcode, hprimitive]
        rcases hcases with rfl | rfl | rfl
        all_goals
          refine turns_instruction .int (plain_simple rfl) rfl (fun _ => ?_)
            (.inr (by cases p <;> decide)) (.pop_bind hslots .pushInteger)
          rw [hkind, valueKinds_int]
          rfl
      rw [valueKinds_int] at hnumber
      rw [compareJump_number href hint']
      have hbranch : Turns p ctx usable scope n
          (branch (if op = .eq then Opcode.ifne else Opcode.ifeq) l 1) (some l) [.int] [] := by
        cases op <;> exact turns_branch hl rfl rfl
      simpa only [bind_assoc] using hnumber.of_none.bind fun _ => hbranch

/-! ## Conditions whose value is wanted -/

section

variable {e e' : Emitter} {locals base : List VerificationType} {u : Unit}

theorem turned_twoLabels (hslots : e.slots = ⟨locals, flat base⟩) :
    Turned p none e (twoLabels e) locals base [] where
  moves := .tail (.single (.newLabel e)) (.newLabel _)
  same := ⟨rfl, rfl, rfl⟩
  slots := by
    rw [List.append_nil, ← hslots]
    rfl
  labels := fun m _ _ => info_twoLabels e m
  target := by simp

theorem open_of_new {l : Label} {s : SlotState} (hl : l < e.labels.size) (hinfo : e.info l = {}) :
    Open e l s :=
  ⟨hl, by rw [hinfo], .inl (by rw [hinfo])⟩

/-- A label is placed that is jumped to with the stack that is there, as far as it is reached. -/
theorem move_place {l : Label} (hrun : Runs (place l) ctx e u e')
    (hnew : (e.info l).placement? = none)
    (hstack : ∀ jumped, (e.info l).state? = some jumped → e.reachable = true →
      e.slots.stack = jumped.stack) : Move p e e' := by
  rcases runs_place.mp hrun with ⟨hnone, rfl⟩ | ⟨jumped, s, hjumped, harriving, rfl⟩
  · exact .place e l hnew hnone
  · rw [arriving] at harriving
    by_cases hreachable : e.reachable = true
    · rw [if_pos hreachable] at harriving
      obtain ⟨hleft, hright⟩ := SlotState.forgets_of_merge (hstack jumped hjumped hreachable)
        harriving
      exact .join e l jumped s hnew hjumped hright fun _ => hleft
    · rw [if_neg hreachable] at harriving
      obtain rfl := Except.ok.inj harriving
      exact .join e l jumped jumped hnew hjumped (.refl jumped) fun h => absurd h hreachable

/-- Placing a label leaves the others alone. -/
theorem info_of_place {l m : Label} (hrun : Runs (place l) ctx e u e') (hlm : l ≠ m) :
    e'.info m = e.info m := by
  rcases runs_place.mp hrun with ⟨_, rfl⟩ | ⟨_, s, _, _, rfl⟩
  · exact info_placed_of_ne hlm
  · exact info_placed_of_ne hlm

theorem reachable_pushInt {value : Int32} (hrun : Runs (pushInt value) ctx e u e') :
    e'.reachable = e.reachable := by
  rcases runs_pushInt.mp hrun with ⟨_, _, rfl⟩ | ⟨_, rfl⟩ <;> rfl

/-- Where nothing is reached, a label takes the state of its jumps up again, or nothing is reached
behind it either. -/
theorem of_place_dead {l : Label} {s : SlotState} (hreachable : e.reachable = false)
    (hopen : Open e l s) (hrun : Runs (place l) ctx e u e') :
    Move p e e' ∧ (e'.slots = s ∨ e'.slots = e.slots ∧ e'.reachable = false) := by
  have hmove : Move p e e' := move_place hrun hopen.unplaced fun _ _ hreached => by
    rw [hreachable] at hreached
    cases hreached
  refine ⟨hmove, ?_⟩
  rcases runs_place.mp hrun with ⟨_, rfl⟩ | ⟨jumped, s', hjumped, harriving, rfl⟩
  · exact .inr ⟨rfl, hreachable⟩
  · rw [arriving, hreachable, if_neg Bool.false_ne_true] at harriving
    obtain rfl := Except.ok.inj harriving
    obtain rfl := Option.some.inj
      ((hopen.state.resolve_left (by rw [hjumped]; exact Option.some_ne_none _)).symm.trans hjumped)
    exact .inl rfl

/-- The end of a condition whose value is wanted: behind the jump of the way where it holds, the
other way begins, and both meet with a number on the stack. -/
theorem turned_meeting {e₃ e₄ e₅ : Emitter} {whenFalse done : Label}
    (hne : whenFalse ≠ done) (hreachable : e₃.reachable = false)
    (hslots : e₃.slots = ⟨locals, flat (base ++ [.integer])⟩)
    (hfalse : Open e₃ whenFalse ⟨locals, flat base⟩) (hdone : (e₃.info done).placement? = none)
    (hjumped : (e₃.info done).state? = some ⟨locals, flat (base ++ [.integer])⟩)
    (hrunFalse : Runs (place whenFalse) ctx e₃ () e₄) (hrunZero : Runs (pushInt 0) ctx e₄ () e₅)
    (hrunDone : Runs (place done) ctx e₅ () e') :
    Moves p e₃ e' ∧ e'.slots = ⟨locals, flat (base ++ [.integer])⟩ ∧
      ∀ m, m < e₃.labels.size → whenFalse ≠ m → done ≠ m → e'.info m = e₃.info m := by
  obtain ⟨hmove, hstate⟩ := of_place_dead (p := p) hreachable hfalse hrunFalse
  have hsize : e₃.labels.size ≤ e₄.labels.size := hmove.steps.size_labels_le
  -- the number is pushed onto what the jumps to the first label carry, or in dead code
  obtain ⟨base', hturned, hlive⟩ : ∃ base', Turned p none e₄ e₅ locals base' [.integer] ∧
      (e₅.reachable = true → base' = base) := by
    rcases hstate with hslots₄ | ⟨hslots₄, hdead⟩
    · exact ⟨base, turned_pushInt hslots₄ hrunZero, fun _ => rfl⟩
    · refine ⟨base ++ [.integer], turned_pushInt (hslots₄.trans hslots) hrunZero,
        fun hreached => ?_⟩
      rw [reachable_pushInt hrunZero, hdead] at hreached
      cases hreached
  have hlabels : ∀ m, m < e₃.labels.size → whenFalse ≠ m → e₅.info m = e₃.info m :=
    fun m hm hfalse => (hturned.labels m (Nat.lt_of_lt_of_le hm hsize) (by simp)).trans
      (info_of_place hrunFalse hfalse)
  have hlt : done < e₃.labels.size :=
    lt_size_of_state (by rw [hjumped]; exact Option.some_ne_none _)
  have hdone₅ := hlabels done hlt hne
  have hmove' : Move p e₅ e' := by
    refine move_place hrunDone (by rw [hdone₅, hdone]) fun jumped hstate₅ hreached => ?_
    rw [hdone₅, hjumped] at hstate₅
    obtain rfl := Option.some.inj hstate₅
    rw [hturned.slots, hlive hreached]
  refine ⟨.head hmove (hturned.moves.trans (.single hmove')), ?_,
    fun m hm hfalse hdone => (info_of_place hrunDone hdone).trans (hlabels m hm hfalse)⟩
  rcases runs_place.mp hrunDone with ⟨hnone, _⟩ | ⟨jumped, s, hstate₅, harriving, rfl⟩
  · rw [hdone₅, hjumped] at hnone
    cases hnone
  · rw [hdone₅, hjumped] at hstate₅
    obtain rfl := Option.some.inj hstate₅
    rw [arriving] at harriving
    split_ifs at harriving with hreached
    · rw [hturned.slots, hlive hreached, SlotState.merge_self] at harriving
      exact (Except.ok.inj harriving).symm
    · exact (Except.ok.inj harriving).symm

/-- A condition whose value is wanted leaves a number. -/
theorem turned_condition {jump : Label → Emit Unit} {e₁ e₂ e₃ e₄ e₅ : Emitter}
    (hway : ConditionRun false n jump ctx e e₁ e₂ e₃ e₄ e₅ e') (hn : n ≤ e.labels.size)
    (hjump : Turns p ctx usable scope (e.labels.size + 2) (jump e.labels.size)
      (some e.labels.size) [] [])
    (hsmall : e'.Small) (hready : Ready p ctx usable scope e)
    (hslots : e.slots = ⟨locals, flat base⟩) : Turned p none e e' locals base [.integer] := by
  have hnew := turned_twoLabels (p := p) hslots
  have hsmall₁ : e₁.Small := hsmall.of_steps (hway.toOne.trans (hway.toGoto.trans
    (hway.toFalse.trans (hway.toZero.trans hway.toDone))))
  have hsize : (twoLabels e).labels.size = e.labels.size + 2 := size_twoLabels e
  have hinfo : ∀ l, e.labels.size ≤ l → (twoLabels e).info l = {} := fun l hl => by
    rw [info_twoLabels, info_of_le hl]
  -- both labels are known from here on
  have hfalse_lt : ∀ {k : Nat}, (twoLabels e).labels.size ≤ k → e.labels.size < k := by omega
  have hdone_lt : ∀ {k : Nat}, (twoLabels e).labels.size ≤ k → e.labels.size + 1 < k := by omega
  obtain ⟨ys, hys, hturned₁⟩ := hjump.turned (twoLabels e) () e₁ locals base []
    (Nat.le_of_eq hsize.symm) hway.jumps hsmall₁
    (hnew.ready [] hready (by rw [hslots, List.append_nil]) .nil) hnew.slots .nil (fun l hl => by
      obtain rfl := Option.some.inj hl
      exact open_of_new (hfalse_lt (Nat.le_refl _)) (hinfo _ (Nat.le_refl _)))
  cases hys
  have hsize₁ := hturned₁.size_labels_le
  have hturned₂ : Turned p none e₁ e₂ locals base [.integer] :=
    turned_pushInt (by rw [hturned₁.slots, List.append_nil]) hway.one
  have hsize₂ := Nat.le_trans hsize₁ hturned₂.size_labels_le
  -- the way where the condition holds jumps to the end
  have hdone₂ : e₂.info (e.labels.size + 1) = {} := by
    rw [hturned₂.labels _ (hdone_lt hsize₁) (by simp),
      hturned₁.labels _ (hdone_lt (Nat.le_refl _)) (by simp), hinfo _ (Nat.le_succ _)]
  have hslots₂ : e₂.slots = ⟨locals, flat (base ++ [.integer] ++ [])⟩ := by
    rw [hturned₂.slots, List.append_nil]
  obtain ⟨he₃, hturned₃⟩ := turned_branch (p := p) rfl rfl hslots₂ .nil
    (open_of_new (hdone_lt hsize₂) hdone₂) hway.goto
  have hsize₃ := Nat.le_trans hsize₂ hturned₃.size_labels_le
  have hfalse₃ : e₃.info e.labels.size = e₁.info e.labels.size :=
    (hturned₃.labels _ (hfalse_lt hsize₂) (by simp)).trans
      (hturned₂.labels _ (hfalse_lt hsize₁) (by simp))
  have hfalse : Open e₃ e.labels.size ⟨locals, flat base⟩ := by
    have hopen := hturned₁.target _ rfl
    exact ⟨hfalse_lt hsize₃, hfalse₃ ▸ hopen.unplaced, hfalse₃ ▸ hopen.state⟩
  have hslots₃ : e₃.slots = ⟨locals, flat (base ++ [.integer])⟩ := by
    rw [hturned₃.slots, List.append_nil]
  obtain ⟨hmoves, hslots', hlabels⟩ := turned_meeting (p := p)
    (Nat.ne_of_lt (Nat.lt_succ_self e.labels.size)) (by rw [he₃]; exact Bool.and_false _) hslots₃
    hfalse (hturned₃.target _ rfl).unplaced
    (by rw [he₃]; exact state_jumpTo { e₂ with slots := _ } Opcode.goto _ (hdone_lt hsize₂))
    hway.whenFalse hway.zero hway.done
  refine
    { moves := hnew.moves.trans (hturned₁.moves.trans (hturned₂.moves.trans
        (hturned₃.moves.trans hmoves)))
      same := (hway.steps hn).sameLocals
      slots := hslots'
      labels := fun m hm _ => ?_
      target := by simp }
  have hlt : ∀ {k : Nat}, (twoLabels e).labels.size ≤ k → m < k :=
    fun hk => Nat.lt_trans hm (hfalse_lt hk)
  have hfalse_ne : e.labels.size ≠ m := Nat.ne_of_gt hm
  have hdone_ne : e.labels.size + 1 ≠ m := Nat.ne_of_gt (Nat.lt_succ_of_lt hm)
  rw [hlabels m (hlt hsize₃) hfalse_ne hdone_ne,
    hturned₃.labels m (hlt hsize₂) (by simpa using hdone_ne),
    hturned₂.labels m (hlt hsize₁) (by simp),
    hturned₁.labels m (hlt (Nat.le_refl _)) (by simpa using hfalse_ne), hnew.labels m hm (by simp)]

end

/-- A condition gets to its destination. -/
theorem turns_condition {jump : Label → Emit Unit} {dest : Destination}
    (hadvances : ∀ k l, n ≤ k → l < k → Advances false k k (jump l))
    (hjump : ∀ k l, n ≤ k → l < k → Turns p ctx usable scope k (jump l) (some l) [] [])
    (hdest : dest.Within n) :
    Turns p ctx usable scope n (condition jump dest) dest.label? [] (dest.leaves [.int]) := by
  cases dest with
  | jumpIfFalse l => exact hjump n l (Nat.le_refl n) hdest
  | value =>
    refine ⟨advances_condition hadvances hdest ctx, ?_⟩
    intro e u e' locals base xs hn hrun hsmall hready hslots hxs _
    cases hxs
    rw [List.append_nil] at hslots
    obtain ⟨e₁, e₂, e₃, e₄, e₅, hway⟩ := exists_conditionRun hadvances hn hrun
    exact ⟨_, .cons (.of_kind? rfl) .nil, turned_condition hway hn
      (hjump _ _ (Nat.le_add_right_of_le hn) (by omega)) hsmall hready hslots⟩

end Emit

end ClassSynth
