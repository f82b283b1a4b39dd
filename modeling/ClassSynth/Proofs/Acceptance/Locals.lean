import ClassSynth.Proofs.Acceptance.Method
import ClassSynth.Proofs.Body.Occurrences

/-!
# Local variables of bodies that are lowered

Operands with the slots that they should have read only local variables in scope, so the bodies that
are lowered declare local variables before they read them (`Emit.Slotted.readsDeclared`).
-/

namespace ClassSynth

/-- The names of the variables in scope. -/
def TypeScope.names (scope : TypeScope) : List String := scope.map Prod.fst

theorem TypeScope.mem_names {scope : TypeScope} {name : String} {p : TypeName → Bool}
    (h : (scope.type? name).any p = true) : name ∈ scope.names := by
  obtain ⟨t, ht, -⟩ := (Option.any_eq_true _ _).mp h
  obtain ⟨before, after, rfl, -⟩ := List.lookup_eq_some_iff.mp (Option.join_eq_some_iff.mp ht)
  simp [names]

variable {declares : Bool} {ctx : MethodContext}

section

variable {scope : TypeScope}

mutual

theorem Expr.localReads_of_slots? : (x : Expr) → {k : Nat} → x.slots? ctx scope = some k →
    x.localReads ⊆ scope.names
  | .this, _, _ | .param _, _, _ | .null, _, _ | .bool _, _, _ | .int _, _, _ | .str _, _, _
  | .getStatic _, _, _ => by
    simp [localReads]
  | .localVar name type, k, h => by
    rw [slots?, Option.ite_none_right_eq_some] at h
    rw [localReads]
    exact List.cons_subset.mpr ⟨TypeScope.mem_names h.1, List.nil_subset _⟩
  | .getField target field, k, h => by
    rw [slots?, Option.ite_none_right_eq_some, beq_iff_eq] at h
    exact target.localReads_of_slots? h.1
  | .invoke kind method target args, k, h => by
    rw [slots?, Option.ite_none_right_eq_some, Bool.and_eq_true, Bool.or_eq_true, beq_iff_eq,
      beq_iff_eq] at h
    rw [localReads, List.append_subset]
    refine ⟨?_, localReads_of_haveSlots args h.1.2⟩
    split_ifs with hkind
    · exact List.nil_subset _
    · exact localReads_of_receiverSlots? target (h.1.1.resolve_left hkind)
  | .new type params args, k, h => by
    rw [slots?, Option.ite_none_right_eq_some, Bool.and_eq_true] at h
    exact localReads_of_haveSlots args h.1.2
  | .newArray element items, k, h => by
    rw [slots?, Option.ite_none_right_eq_some] at h
    exact localReads_of_haveSlots items h.1
  | .cast type value, k, h => by
    rw [slots?, Option.ite_none_right_eq_some, Bool.and_eq_true, beq_iff_eq] at h
    exact value.localReads_of_slots? h.1.2
  | .boxed value source, k, h => by
    rw [slots?, Option.ite_none_right_eq_some, Bool.and_eq_true, beq_iff_eq] at h
    exact value.localReads_of_slots? h.1.2
  | .unboxed value target, k, h => by
    rw [slots?, Option.ite_none_right_eq_some, Bool.and_eq_true, beq_iff_eq] at h
    exact value.localReads_of_slots? h.1.2
  | .arith op lhs rhs, k, h => by
    rw [slots?, Option.ite_none_right_eq_some, Bool.and_eq_true, beq_iff_eq, beq_iff_eq] at h
    rw [localReads, List.append_subset]
    exact ⟨lhs.localReads_of_slots? h.1.1, rhs.localReads_of_slots? h.1.2⟩
  | .and items, k, h | .compare op lhs rhs, k, h => by
    rw [slots?] at h
    cases h

theorem Expr.localReads_of_haveSlots : (xs : List Expr) → {ns : List Nat} →
    haveSlots ctx scope ns xs = true → localReadsList xs ⊆ scope.names
  | [], _, _ => List.nil_subset _
  | x :: xs, [], h => by cases h
  | x :: xs, n :: ns, h => by
    rw [haveSlots, Bool.and_eq_true, beq_iff_eq] at h
    rw [localReadsList, List.append_subset]
    exact ⟨x.localReads_of_slots? h.1, localReads_of_haveSlots xs h.2⟩

theorem Expr.localReads_of_receiverSlots? : (target : Option Expr) → {k : Nat} →
    receiverSlots? ctx scope target = some k → localReadsOption target ⊆ scope.names
  | none, _, _ => List.nil_subset _
  | some x, _, h => x.localReads_of_slots? h

end

mutual

theorem Expr.localReads_of_decides : (x : Expr) → x.decides ctx scope = true →
    x.localReads ⊆ scope.names
  | .and items, h => by
    rw [decides, Bool.and_eq_true] at h
    exact localReads_of_allDecide items h.2
  | .compare op lhs rhs, h => by
    rw [localReads, List.append_subset]
    by_cases hrhs : rhs = .null
    · subst hrhs
      rw [decides, beq_iff_eq] at h
      exact ⟨lhs.localReads_of_slots? h, List.nil_subset _⟩
    by_cases hlhs : lhs = .null
    · subst hlhs
      rw [decides, beq_iff_eq] at h
      · exact ⟨List.nil_subset _, rhs.localReads_of_slots? h⟩
      · exact hrhs
    rw [decides, Option.any_eq_true] at h
    · obtain ⟨t, ht, h⟩ := h
      rw [Bool.and_eq_true, beq_iff_eq, beq_iff_eq] at h
      exact ⟨lhs.localReads_of_slots? h.1, rhs.localReads_of_slots? h.2⟩
    · exact hrhs
    · exact hlhs
  | .bool _, h => by simp [decides] at h
  | .this, h | .param _, h | .localVar .., h | .null, h | .int _, h | .str _, h | .getField .., h
  | .getStatic _, h | .invoke .., h | .new .., h | .newArray .., h | .cast .., h | .boxed .., h
  | .unboxed .., h | .arith .., h => by
    exact localReads_of_slots? _ (by simpa [decides] using h)

theorem Expr.localReads_of_allDecide : (xs : List Expr) → allDecide ctx scope xs = true →
    localReadsList xs ⊆ scope.names
  | [], _ => List.nil_subset _
  | x :: xs, h => by
    rw [allDecide, Bool.and_eq_true] at h
    rw [localReadsList, List.append_subset]
    exact ⟨x.localReads_of_decides h.1, localReads_of_allDecide xs h.2⟩

end

theorem Expr.localReads_of_yields? {x : Expr} {k : Nat} (h : x.yields? ctx scope = some k) :
    x.localReads ⊆ scope.names := by
  cases x
  case and | compare =>
    rw [yields?, Option.ite_none_right_eq_some] at h
    exact localReads_of_decides _ h.1
  all_goals
    rw [yields?] at h
    · exact localReads_of_slots? _ h
    all_goals
      intros
      contradiction

end

namespace Stmt

mutual

/-- What a statement declares is all that is new in scope behind it. -/
theorem names_of_scopeAfter? : (s : Stmt) → {scope scope' : TypeScope} → {known : List String} →
    s.scopeAfter? declares ctx scope = some scope' → scope.names ⊆ known →
    ReadsDeclared known s ∧ scope'.names ⊆ s.declared ++ known
  | .setField target field value, scope, scope', known, h, hknown => by
    rw [scopeAfter?, Option.ite_none_right_eq_some, Bool.and_eq_true, beq_iff_eq, beq_iff_eq,
      Option.some.injEq] at h
    obtain ⟨⟨htarget, hvalue⟩, rfl⟩ := h
    exact ⟨⟨List.Subset.trans (target.localReads_of_slots? htarget) hknown,
      List.Subset.trans (value.localReads_of_slots? hvalue) hknown⟩, hknown⟩
  | .declareLocal name type value, scope, scope', known, h, hknown => by
    rw [scopeAfter?, Option.ite_none_right_eq_some, Bool.and_eq_true, beq_iff_eq,
      Option.some.injEq] at h
    obtain ⟨⟨-, hvalue⟩, rfl⟩ := h
    exact ⟨List.Subset.trans (Expr.localReads_of_yields? hvalue) hknown,
      List.cons_subset_cons _ hknown⟩
  | .setLocal name value, scope, scope', known, h, hknown
  | .expr value, scope, scope', known, h, hknown => by
    rw [scopeAfter?, Option.ite_none_right_eq_some, Option.any_eq_true, Option.some.injEq] at h
    obtain ⟨⟨t, -, hvalue⟩, rfl⟩ := h
    exact ⟨List.Subset.trans (Expr.localReads_of_yields? (beq_iff_eq.mp hvalue)) hknown, hknown⟩
  | .ifThen cond body, scope, scope', known, h, hknown => by
    rw [scopeAfter?, Option.ite_none_right_eq_some] at h
    obtain ⟨hreads, hnames⟩ := names_of_scopeAfterAll? body h.2 hknown
    exact ⟨⟨List.Subset.trans (cond.localReads_of_decides h.1) hknown, hreads⟩, hnames⟩
  | .ret none, scope, scope', known, h, hknown => by
    rw [scopeAfter?, Option.ite_none_right_eq_some, Option.some.injEq] at h
    obtain ⟨-, rfl⟩ := h
    exact ⟨List.nil_subset _, hknown⟩
  | .ret (some value), scope, scope', known, h, hknown => by
    rw [scopeAfter?, Option.ite_none_right_eq_some, Bool.and_eq_true, beq_iff_eq,
      Option.some.injEq] at h
    obtain ⟨⟨-, hvalue⟩, rfl⟩ := h
    exact ⟨List.Subset.trans (Expr.localReads_of_yields? hvalue) hknown, hknown⟩
  | .throw value, scope, scope', known, h, hknown => by
    rw [scopeAfter?, Option.ite_none_right_eq_some, beq_iff_eq, Option.some.injEq] at h
    obtain ⟨hvalue, rfl⟩ := h
    exact ⟨List.Subset.trans (Expr.localReads_of_yields? hvalue) hknown, hknown⟩
  | .superInit owner params args, scope, scope', known, h, hknown => by
    rw [scopeAfter?, Option.ite_none_right_eq_some, Bool.and_eq_true, Option.some.injEq] at h
    obtain ⟨⟨-, hargs⟩, rfl⟩ := h
    exact ⟨List.Subset.trans (Expr.localReads_of_haveSlots args hargs) hknown, hknown⟩

/-- Statements that are lowered declare local variables before they read them. -/
theorem names_of_scopeAfterAll? : (ss : List Stmt) → {scope scope' : TypeScope} →
    {known : List String} → scopeAfterAll? declares ctx scope ss = some scope' →
    scope.names ⊆ known → ReadsDeclaredAll known ss ∧ scope'.names ⊆ declaredAll ss ++ known
  | [], scope, scope', known, h, hknown => by
    rw [scopeAfterAll?, Option.some.injEq] at h
    exact ⟨trivial, h ▸ hknown⟩
  | s :: rest, scope, scope', known, h, hknown => by
    rw [scopeAfterAll?, Option.ite_none_left_eq_some, Option.bind_eq_some_iff] at h
    obtain ⟨-, scope₁, hs, hrest⟩ := h
    obtain ⟨hreads, hnames⟩ := names_of_scopeAfter? s hs hknown
    obtain ⟨hreads', hnames'⟩ := names_of_scopeAfterAll? rest hrest hnames
    refine ⟨⟨hreads, hreads'⟩, fun name hname => ?_⟩
    have hmem := hnames' hname
    simp only [declaredAll, List.mem_append] at hmem ⊢
    tauto

end

end Stmt

/-- Bodies that are lowered declare local variables before they read them. -/
theorem Emit.Slotted.readsDeclared {body : List Stmt} (h : Slotted declares ctx body) :
    Stmt.ReadsDeclaredAll [] body := by
  obtain ⟨scope, hscope⟩ := Option.isSome_iff_exists.mp h.scope
  exact (Stmt.names_of_scopeAfterAll? body hscope (List.nil_subset _)).1

end ClassSynth
