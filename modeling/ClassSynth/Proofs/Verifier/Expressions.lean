import ClassSynth.Proofs.Verifier.Calls
import ClassSynth.Proofs.Verifier.Conditions

/-!
# Typed expressions

The code of an expression whose operands are of the types they should be of leaves a value of its
type and touches nothing else; as a condition it leaves nothing and jumps with the stack it started
on (`turns_expr`). The proof follows the constructors of expressions: each is made of the code of
its operands, a small piece that takes what they leave, and the destination.
-/

namespace ClassSynth

open Emit Emitter VerificationType

/-! ## Types -/

theorem MethodContext.paramType?_of_paramSlot? {ctx : MethodContext} {index slot : Nat}
    {t : TypeName} (h : ctx.paramSlot? index = some (slot, t)) :
    Expr.paramType? ctx.params index = some t := by
  cases index with
  | zero => cases h
  | succ position =>
    obtain ⟨u, hu, heq⟩ := Option.map_eq_some_iff.mp h
    obtain rfl := (Prod.mk.inj heq).2
    exact hu

namespace Precision

/-- A primitive type and its wrapper class can be the types of members. -/
theorem declares_of_boxed? {p : Precision} {source wrapper : TypeName}
    (h : source.boxed? = some wrapper) : p.declares source = true ∧ p.declares wrapper = true := by
  obtain ⟨text⟩ := source
  obtain ⟨primitive, hprimitive, rfl⟩ := Option.map_eq_some_iff.mp h
  obtain rfl := Primitive.keyword_of_ofKeyword? hprimitive
  cases p <;> cases primitive <;> decide

end Precision

theorem ofType_null : ValueKind.ofType .null = .reference := by decide

theorem TypeName.valueKinds_boolean : TypeName.boolean.valueKinds = [.int] := by decide

/-! ## Expressions -/

namespace Emit

variable {p : Precision} {ctx : MethodContext} {usable : Bool} {scope : TypeScope} {n : Nat}

/-- The value of an operand of a type that can stand where one of a kind is wanted. -/
theorem turns_operand {x : Expr} {k : ValueKind}
    (h : (x.type? p ctx usable scope).any (p.admits k) = true)
    (hx : ∀ {t}, x.type? p ctx usable scope = some t →
      Turns p ctx usable scope n (expr .value x) none [] t.valueKinds) :
    Turns p ctx usable scope n (expr .value x) none [] [k] := by
  obtain ⟨t, ht, hadmits⟩ := (Option.any_eq_true _ _).mp h
  exact (hx ht).alike (Precision.alike_of_admits hadmits)

variable (p ctx usable scope)

mutual

/-- The code of a typed expression gets its value to the destination. -/
theorem turns_expr : (x : Expr) → (n : Nat) → (dest : Destination) → {t : TypeName} →
    dest.Within n → x.type? p ctx usable scope = some t →
    (dest ≠ .value → p.admits .int t = true) →
    Turns p ctx usable scope n (expr dest x) dest.label? [] (dest.leaves t.valueKinds)
  | .this, n, dest, t, hdest, h, hint => by
    rw [Expr.type?] at h
    split_ifs at h with husable
    obtain rfl := Option.some.inj h
    rw [Bool.and_eq_true] at husable
    rw [expr]
    exact (turns_loadThis husable.1 husable.2).settled hdest hint
  | .param index, n, dest, t, hdest, h, hint => by
    rw [Expr.type?] at h
    rw [expr]
    refine .read_bind ?_
    split
    · next slot type hslot =>
      rw [MethodContext.paramType?_of_paramSlot? hslot] at h
      obtain rfl := Option.some.inj h
      exact (turns_load fun e hready => hready.params index slot _ hslot).settled hdest hint
    · exact Turns.settled .fail hdest hint
  | .localVar name type, n, dest, t, hdest, h, hint => by
    rw [Expr.type?] at h
    split_ifs at h with hany
    obtain rfl := Option.some.inj h
    obtain ⟨declared, hname, hadmits⟩ := (Option.any_eq_true _ _).mp hany
    rw [expr]
    simpa only [bind_assoc] using (turns_localVar hname hadmits).settled hdest hint
  | .null, n, dest, t, hdest, h, hint => by
    obtain rfl := Option.some.inj h
    rw [expr]
    simpa only [bind_assoc] using turns_null.settled hdest hint
  | .bool value, n, dest, t, hdest, h, hint => by
    obtain rfl := Option.some.inj h
    rw [TypeName.valueKinds_boolean]
    cases dest with
    | value =>
      rw [expr]
      exact turns_pushInt _
    | jumpIfFalse l =>
      rw [expr]
      exact .ite .pure (turns_branch hdest rfl rfl)
  | .int value, n, dest, t, hdest, h, hint => by
    obtain rfl := Option.some.inj h
    rw [expr]
    exact Turns.settled (valueKinds_int ▸ turns_pushInt value) hdest hint
  | .str value, n, dest, t, hdest, h, hint => by
    obtain rfl := Option.some.inj h
    rw [expr]
    simpa only [bind_assoc] using (turns_string value).settled hdest hint
  | .getField target field, n, dest, t, hdest, h, hint => by
    rw [Expr.type?] at h
    split_ifs at h with hfits
    obtain rfl := Option.some.inj h
    rw [Bool.and_eq_true] at hfits
    have htarget := turns_operand (n := n) hfits.1 fun ht => turns_expr target n .value trivial ht
      (by simp)
    rw [expr]
    simpa only [bind_assoc] using
      (htarget.bind fun _ => turns_getField hfits.2).settled hdest hint
  | .getStatic field, n, dest, t, hdest, h, hint => by
    rw [Expr.type?] at h
    split_ifs at h with hfits
    obtain rfl := Option.some.inj h
    rw [expr]
    simpa only [bind_assoc] using (turns_getStatic hfits).settled hdest hint
  | .invoke kind method target args, n, dest, t, hdest, h, hint => by
    rw [Expr.type?] at h
    split_ifs at h with hfits
    obtain rfl := Option.some.inj h
    simp only [Bool.and_eq_true, Bool.or_eq_true, beq_iff_eq, List.all_eq_true] at hfits
    obtain ⟨⟨⟨htarget, hparams⟩, hargs⟩, hret⟩ := hfits
    have hcall : Turns p ctx usable scope n (do
        checkCount method.params args
        exprs .value args
        call kind method) none (receiverKinds kind) method.ret.valueKinds :=
      (Turns.checkCount method.params args).bind fun _ =>
        ((turns_exprs args n hargs).above (receiverKinds kind)).bind fun _ =>
        turns_call kind hparams hret
    rw [expr]
    by_cases hkind : kind = .static
    · rw [receiverKinds, if_pos hkind] at hcall
      rw [if_neg (not_not.mpr hkind)]
      simpa only [bind_assoc] using hcall.settled hdest hint
    · rw [receiverKinds, if_neg hkind] at hcall
      have hreceiver := turns_receiver method target n (htarget.resolve_left hkind)
      rw [if_pos hkind]
      simpa only [bind_assoc] using (hreceiver.bind fun _ => hcall).settled hdest hint
  | .new type params args, n, dest, t, hdest, h, hint => by
    rw [Expr.type?] at h
    split_ifs at h with hfits
    obtain rfl := Option.some.inj h
    simp only [Bool.and_eq_true, List.all_eq_true] at hfits
    obtain ⟨⟨htype, hparams⟩, hargs⟩ := hfits
    have hnew := turns_new (TypeName.valueKinds_of_isReference htype) hparams
      ((Turns.checkCount params args).bind fun _ => turns_exprs args n hargs)
    rw [expr]
    simpa only [bind_assoc] using hnew.settled hdest hint
  | .newArray element items, n, dest, t, hdest, h, hint => by
    rw [Expr.type?] at h
    split_ifs at h with hfits
    obtain rfl := Option.some.inj h
    rw [Bool.and_eq_true] at hfits
    have hkinds : element.arrayOf.valueKinds = [.reference] := by
      rw [TypeName.valueKinds, if_neg (by simp [TypeName.isVoid_arrayOf]), TypeName.ofType_arrayOf]
    have hlength : Turns p ctx usable scope n (pushInt (Int32.ofNat items.length)) none [] [.int] :=
      turns_pushInt _
    have harray := hlength.bind fun _ =>
      turns_newArray (fills_elements element items n 0 hfits.1 hfits.2)
    rw [← hkinds] at harray
    rw [expr]
    simpa only [bind_assoc] using harray.settled hdest hint
  | .cast type value, n, dest, t, hdest, h, hint => by
    rw [Expr.type?] at h
    split_ifs at h with hfits
    obtain rfl := Option.some.inj h
    rw [Bool.and_eq_true] at hfits
    have hvalue := turns_operand (n := n) hfits.1 fun ht => turns_expr value n .value trivial ht
      (by simp)
    rw [expr]
    split_ifs with hprimitive
    · exact .fail_bind
    · simpa only [bind_assoc] using (hvalue.bind fun _ =>
        turns_cast hfits.2 (Bool.eq_false_iff.mpr hprimitive)).settled hdest hint
  | .boxed value source, n, dest, t, hdest, h, hint => by
    rw [Expr.type?] at h
    split_ifs at h with hfits
    obtain ⟨hsource, hwrapper⟩ := Precision.declares_of_boxed? (p := p) h
    have hvalue := turns_operand (n := n) hfits fun ht => turns_expr value n .value trivial ht
      (by simp)
    rw [expr, h]
    have hcall : Turns p ctx usable scope n
        (call .static { owner := t, name := "valueOf", params := [source], ret := t }) none
        [.ofType source] t.valueKinds :=
      turns_call .static (List.forall_mem_singleton.mpr hsource) (.inr hwrapper)
    simpa only [bind_assoc] using (hvalue.bind fun _ => hcall).settled hdest hint
  | .unboxed value target, n, dest, t, hdest, h, hint => by
    rw [Expr.type?] at h
    split_ifs at h with hfits
    obtain rfl := Option.some.inj h
    rw [Bool.and_eq_true] at hfits
    have hvalue := turns_operand (n := n) hfits.1 fun ht => turns_expr value n .value trivial ht
      (by simp)
    obtain ⟨primitive, hprimitive⟩ := Option.isSome_iff_exists.mp hfits.2
    have hboxed : target.boxed? = some ⟨primitive.wrapper⟩ := by
      rw [TypeName.boxed?, hprimitive]
      rfl
    obtain ⟨htarget, _⟩ := Precision.declares_of_boxed? (p := p) hboxed
    rw [expr, hboxed]
    have hcall : Turns p ctx usable scope n
        (call .virtual { owner := ⟨primitive.wrapper⟩, name := target.text ++ "Value", params := []
                         ret := target }) none [.reference] target.valueKinds :=
      turns_call .virtual (by simp) (.inr htarget)
    simpa only [bind_assoc] using (hvalue.bind fun _ => hcall).settled hdest hint
  | .arith op lhs rhs, n, dest, t, hdest, h, hint => by
    rw [Expr.type?] at h
    split_ifs at h with hfits
    obtain rfl := Option.some.inj h
    rw [Bool.and_eq_true] at hfits
    have hlhs := turns_operand (n := n) hfits.1 fun ht => turns_expr lhs n .value trivial ht
      (by simp)
    have hrhs := turns_operand (n := n) hfits.2 fun ht => turns_expr rhs n .value trivial ht
      (by simp)
    rw [expr_arith]
    simpa only [bind_assoc] using (hlhs.bind fun _ => (hrhs.above [.int]).bind fun _ =>
      turns_arith op).settled hdest hint
  | .and items, n, dest, t, hdest, h, hint => by
    rw [Expr.type?] at h
    split_ifs at h with hfits
    obtain rfl := Option.some.inj h
    rw [expr, TypeName.valueKinds_boolean]
    exact turns_condition (fun k l _ hl => advances_exprs items k (.jumpIfFalse l) hl)
      (fun k l _ hl => turns_conjunction items k hl hfits) hdest
  | .compare op lhs rhs, n, dest, t, hdest, h, hint => by
    rw [Expr.type?] at h
    split_ifs at h with hfits
    obtain rfl := Option.some.inj h
    obtain ⟨type, hlhs, hfits⟩ := (Option.any_eq_true _ _).mp hfits
    rw [Bool.and_eq_true, Bool.not_eq_true'] at hfits
    obtain ⟨hvoid, hrhs⟩ := hfits
    have hleft : ∀ {k : Nat}, Turns p ctx usable scope k (expr .value lhs) none []
        type.valueKinds :=
      turns_expr lhs _ .value trivial hlhs (by simp)
    have hright : ∀ {k : Nat}, Turns p ctx usable scope k (expr .value rhs) none []
        [.ofType type] :=
      turns_operand hrhs fun ht => turns_expr rhs _ .value trivial ht (by simp)
    have hoperand : ∀ {k : Nat}, Turns p ctx usable scope k (expr .value lhs) none []
        [.ofType type] := by
      rw [TypeName.valueKinds, if_neg (by simp [hvoid])] at hleft
      exact hleft
    have hlhsAdvances : ∀ {k : Nat}, Advances false k k (expr .value lhs) :=
      advances_expr lhs _ .value trivial
    have hrhsAdvances : ∀ {k : Nat}, Advances false k k (expr .value rhs) :=
      advances_expr rhs _ .value trivial
    rw [TypeName.valueKinds_boolean]
    by_cases hr : rhs = .null
    · subst hr
      obtain ⟨u, hu, hadmits⟩ := (Option.any_eq_true _ _).mp hrhs
      obtain rfl := Option.some.inj hu
      have hsame := Precision.same_symm (Precision.admits_iff.mp hadmits).2
      rw [ofType_null] at hsame
      rw [expr_compare_null_right]
      refine turns_condition (fun _ _ _ hl => hlhsAdvances.bind fun _ => advances_nullJump op hl)
        ?_ hdest
      exact fun k l _ hl => (hoperand.alike (.cons hsame .nil)).of_none.bind fun _ =>
        turns_nullJump op hl
    · by_cases hl : lhs = .null
      · subst hl
        obtain rfl := Option.some.inj hlhs
        rw [ofType_null] at hright
        rw [expr_compare_null_left dest op hr]
        refine turns_condition (fun _ _ _ hl => hrhsAdvances.bind fun _ => advances_nullJump op hl)
          ?_ hdest
        exact fun k l _ hl => hright.of_none.bind fun _ => turns_nullJump op hl
      · rw [expr_compare dest op hl hr]
        refine turns_condition (fun _ _ _ hl => (advances_typeOf lhs).bind fun t =>
          hlhsAdvances.bind fun _ => hrhsAdvances.bind fun _ => advances_compareJump op t hl)
          ?_ hdest
        intro k l _ hl
        refine .typeOf_bind (Expr.valueType?_of_type? hlhs) ?_
        exact hoperand.of_none.bind fun _ => (hright.above [.ofType type]).of_none.bind fun _ =>
          turns_compareJump op hl hvoid

theorem turns_exprs : (xs : List Expr) → (n : Nat) → {ks : List ValueKind} →
    Expr.allFit p ctx usable scope ks xs = true →
    Turns p ctx usable scope n (exprs .value xs) none [] ks
  | [], n, ks, h => by
    cases ks with
    | nil =>
      rw [exprs]
      exact .pure
    | cons k ks => simp [Expr.allFit] at h
  | x :: xs, n, ks, h => by
    cases ks with
    | nil => simp [Expr.allFit] at h
    | cons k ks =>
      rw [Expr.allFit, Bool.and_eq_true] at h
      have hx := turns_operand (n := n) h.1 fun ht => turns_expr x n .value trivial ht (by simp)
      rw [exprs]
      exact hx.bind fun _ => (turns_exprs xs n h.2).above [k]

theorem turns_conjunction : (xs : List Expr) → (n : Nat) → {l : Label} → l < n →
    Expr.allFit p ctx usable scope (.replicate xs.length .int) xs = true →
    Turns p ctx usable scope n (exprs (.jumpIfFalse l) xs) (some l) [] []
  | [], n, l, hl, h => by
    rw [exprs]
    exact .pure
  | x :: xs, n, l, hl, h => by
    rw [List.length_cons, List.replicate_succ, Expr.allFit, Bool.and_eq_true] at h
    obtain ⟨t, ht, hint⟩ := (Option.any_eq_true _ _).mp h.1
    have hx := turns_expr x n (.jumpIfFalse l) hl ht fun _ => hint
    rw [exprs]
    exact hx.bind fun _ => turns_conjunction xs n hl h.2

theorem turns_receiver (method : MethodRef) : (target : Option Expr) → (n : Nat) →
    Expr.receiverFits p ctx usable scope target = true →
    Turns p ctx usable scope n (receiver method target) none [] [.reference]
  | some x, n, h => by
    rw [Expr.receiverFits] at h
    rw [receiver]
    exact turns_operand h fun ht => turns_expr x n .value trivial ht (by simp)
  | none, n, h => by
    rw [receiver]
    exact .fail

theorem fills_elements (element : TypeName) : (xs : List Expr) → (n index : Nat) →
    p.inhabits element = true →
    Expr.allFit p ctx usable scope (.replicate xs.length (.ofType element)) xs = true →
    Fills p ctx usable scope n (elements element index xs) element
  | [], n, index, helement, h => by
    rw [elements]
    exact fills_nothing element
  | x :: xs, n, index, helement, h => by
    rw [List.length_cons, List.replicate_succ, Expr.allFit, Bool.and_eq_true] at h
    have hx := turns_operand (n := n) h.1 fun ht => turns_expr x n .value trivial ht (by simp)
    rw [elements]
    exact .cons helement hx (fills_elements element xs n (index + 1) helement h.2)

end

end Emit

end ClassSynth
