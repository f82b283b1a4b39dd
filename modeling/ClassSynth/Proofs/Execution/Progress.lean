import ClassSynth.Proofs.Execution.Evaluation
import Mathlib.Data.List.Forall2

/-!
# Scalar bodies have a meaning

Where operands are of matching kinds, evaluation does not get stuck: an expression has a value of
its kind (`Expr.exists_evaluate`), and a statement goes on with values for the scope after it, or
returns a value of the kind that the method returns (`Stmt.exists_execute`).
-/

namespace ClassSynth

/-- The kinds of the values in an environment. -/
def Bindings.kinds (env : Bindings) : KindScope :=
  env.map fun entry => (entry.1, entry.2.kind)

/-- The arguments are of the types of the parameters. -/
abbrev Arguments (params : List TypeName) (args : List Scalar) : Prop :=
  List.Forall₂ (fun t v => Scalar.kindOf? t = some v.kind) params args

theorem Bindings.kinds_cons (name : String) (v : Scalar) (env : Bindings) :
    Bindings.kinds ((name, v) :: env) = (name, v.kind) :: env.kinds :=
  rfl

theorem Bindings.lookup_kinds (env : Bindings) (name : String) :
    env.kinds.lookup name = (env.lookup name).map Scalar.kind := by
  induction env with
  | nil => rfl
  | cons entry env ih =>
    obtain ⟨first, v⟩ := entry
    rw [kinds_cons, List.lookup_cons, List.lookup_cons]
    by_cases h : name == first
    · simp [h]
    · simp [h, ih]

theorem Bindings.kinds_assign {env : Bindings} {name : String} {v : Scalar}
    (h : env.kinds.lookup name = some v.kind) : (env.assign name v).kinds = env.kinds := by
  induction env with
  | nil => rfl
  | cons entry env ih =>
    obtain ⟨first, old⟩ := entry
    rw [kinds_cons, List.lookup_cons] at h
    unfold assign
    by_cases hname : first = name
    · have hkind : old.kind = v.kind := by simpa [hname] using h
      simp [hname, kinds_cons, hkind]
    · have hother : (name == first) = false := beq_false_of_ne (Ne.symm hname)
      have hrest : (Bindings.kinds env).lookup name = some v.kind := by
        rwa [hother] at h
      simp [hname, kinds_cons, ih hrest]

theorem Arguments.getElem? {params : List TypeName} {args : List Scalar}
    (h : Arguments params args) {position : Nat} {t : TypeName}
    (ht : params[position]? = some t) :
    ∃ v, args[position]? = some v ∧ Scalar.kindOf? t = some v.kind := by
  induction h generalizing position with
  | nil => cases ht
  | @cons t' v' params args hkind _ ih =>
    cases position with
    | zero =>
      obtain rfl : t' = t := by simpa using ht
      exact ⟨v', rfl, hkind⟩
    | succ position => exact ih (by simpa using ht)

/-! ## Expressions -/

section

variable {params : List TypeName} {args : List Scalar} {env : Bindings}

theorem Scalar.eq_int_of_kind {v : Scalar} (h : v.kind = .int) : ∃ n, v = .int n := by
  cases v with
  | int n => exact ⟨n, rfl⟩
  | bool b => cases h
  | ref object? => cases h

theorem Scalar.eq_bool_of_kind {v : Scalar} (h : v.kind = .bool) : ∃ b, v = .bool b := by
  cases v with
  | int n => cases h
  | bool b => exact ⟨b, rfl⟩
  | ref object? => cases h

mutual

/-- An expression of a kind has a value of that kind. -/
theorem Expr.exists_evaluate (hargs : Arguments params args) : (x : Expr) → {kind : Scalar.Kind} →
    x.kind? params env.kinds = some kind → ∃ v, x.evaluate args env = some v ∧ v.kind = kind
  | .param 0, kind, h => by
    simp [kind?, paramType?] at h
  | .param (position + 1), kind, h => by
    rw [kind?] at h
    obtain ⟨t, ht, hkind⟩ := Option.bind_eq_some_iff.mp h
    obtain ⟨v, hv, hvkind⟩ := hargs.getElem? ht
    rw [hkind] at hvkind
    exact ⟨v, by rw [evaluate, hv], (Option.some.inj hvkind).symm⟩
  | .localVar name type, kind, h => by
    rw [kind?] at h
    obtain ⟨hlookup, _⟩ := Option.filter_eq_some_iff.mp h
    rw [Bindings.lookup_kinds] at hlookup
    obtain ⟨v, hv, hkind⟩ := Option.map_eq_some_iff.mp hlookup
    exact ⟨v, by rw [evaluate, hv], hkind⟩
  | .null, kind, h => ⟨.ref none, by rw [evaluate], by simpa [kind?, Scalar.kind] using h⟩
  | .bool b, kind, h => ⟨.bool b, by rw [evaluate], by simpa [kind?, Scalar.kind] using h⟩
  | .int n, kind, h => ⟨.int n, by rw [evaluate], by simpa [kind?, Scalar.kind] using h⟩
  | .arith op lhs rhs, kind, h => by
    rw [kind?] at h
    split_ifs at h with hkinds
    obtain ⟨v, hv, hvkind⟩ := lhs.exists_evaluate hargs hkinds.1
    obtain ⟨w, hw, hwkind⟩ := rhs.exists_evaluate hargs hkinds.2
    obtain ⟨a, rfl⟩ := Scalar.eq_int_of_kind hvkind
    obtain ⟨b, rfl⟩ := Scalar.eq_int_of_kind hwkind
    exact ⟨.int (op.apply a b), by rw [evaluate, hv, hw], Option.some.inj h⟩
  | .and items, kind, h => by
    rw [kind?] at h
    split_ifs at h with hitems
    obtain ⟨b, hb⟩ := Expr.exists_holdAll hargs items hitems
    exact ⟨.bool b, by rw [evaluate, hb, Option.map_some], Option.some.inj h⟩
  | .compare op lhs rhs, kind, h => by
    rw [kind?] at h
    split_ifs at h with hkinds
    obtain ⟨k, hk⟩ := Option.isSome_iff_exists.mp hkinds.1
    obtain ⟨v, hv, _⟩ := lhs.exists_evaluate hargs hk
    obtain ⟨w, hw, _⟩ := rhs.exists_evaluate hargs (hkinds.2 ▸ hk)
    exact ⟨.bool (op.holds (v == w)), by rw [evaluate, hv, hw], Option.some.inj h⟩

theorem Expr.exists_holdAll (hargs : Arguments params args) : (items : List Expr) →
    Expr.areConditions params env.kinds items = true →
    ∃ b, Expr.holdAll args env items = some b
  | [], _ => ⟨true, by rw [holdAll]⟩
  | item :: rest, h => by
    rw [areConditions, Bool.and_eq_true, decide_eq_true_eq] at h
    obtain ⟨v, hv, hkind⟩ := item.exists_evaluate hargs h.1
    obtain ⟨b, rfl⟩ := Scalar.eq_bool_of_kind hkind
    rw [holdAll, hv]
    cases b with
    | false => exact ⟨false, rfl⟩
    | true => exact Expr.exists_holdAll hargs rest h.2

end

/-- The value of an expression is of the kind of the expression. -/
theorem Expr.kind_of_evaluate (hargs : Arguments params args) {x : Expr} {kind : Scalar.Kind}
    (h : x.kind? params env.kinds = some kind) {v : Scalar} (hv : x.evaluate args env = some v) :
    v.kind = kind := by
  obtain ⟨w, hw, hkind⟩ := x.exists_evaluate hargs h
  rw [hv] at hw
  rw [Option.some.inj hw, hkind]

end

/-! ## Statements -/

section

variable {ctx : MethodContext} {args : List Scalar}

/-- Statements only add to the scope, and only what they declare. -/
theorem Stmt.scope_of_scope? {scope after : KindScope} {s : Stmt}
    (h : s.scope? ctx scope = some after) :
    ∃ new, after = new ++ scope ∧ ∀ entry ∈ new, entry.1 ∈ s.declared := by
  have hsame : after = scope → ∃ new, after = new ++ scope ∧ ∀ entry ∈ new, entry.1 ∈ s.declared :=
    fun heq => ⟨[], heq, by simp⟩
  cases s with
  | declareLocal name type value =>
    rw [scope?] at h
    split at h
    · split_ifs at h
      exact ⟨[_], (Option.some.inj h).symm, by simp [declared]⟩
    · cases h
  | setLocal name value =>
    rw [scope?] at h
    split at h
    · split_ifs at h
      exact hsame (Option.some.inj h).symm
    · cases h
  | expr value =>
    rw [scope?] at h
    split_ifs at h
    exact hsame (Option.some.inj h).symm
  | ifThen cond body =>
    rw [scope?] at h
    split_ifs at h
    exact hsame (Option.some.inj h).symm
  | ret value? =>
    cases value? with
    | none => exact hsame (by simpa [scope?] using h.symm)
    | some value =>
      rw [scope?] at h
      split at h
      · split_ifs at h
        exact hsame (Option.some.inj h).symm
      · cases h
  | _ => simp [scope?] at h

theorem Stmt.scope_of_scopeAll? {scope after : KindScope} {body : List Stmt}
    (h : Stmt.scopeAll? ctx scope body = some after) :
    ∃ new, after = new ++ scope ∧ ∀ entry ∈ new, entry.1 ∈ Stmt.declaredAll body := by
  induction body generalizing scope with
  | nil =>
    rw [scopeAll?] at h
    exact ⟨[], (Option.some.inj h).symm, by simp⟩
  | cons s rest ih =>
    rw [scopeAll?] at h
    obtain ⟨middle, hs, hrest⟩ := Option.bind_eq_some_iff.mp h
    obtain ⟨new, rfl, hnew⟩ := Stmt.scope_of_scope? hs
    obtain ⟨more, rfl, hmore⟩ := ih hrest
    refine ⟨more ++ new, by rw [List.append_assoc], fun entry hentry => ?_⟩
    rw [declaredAll]
    rcases List.mem_append.mp hentry with hentry | hentry
    · exact List.mem_append_right _ (hmore entry hentry)
    · exact List.mem_append_left _ (hnew entry hentry)

/-- What the flow leads to is of the kinds that are expected: the values in scope if it goes on, the
result of the method if it returns. -/
def Flow.OfKinds (ctx : MethodContext) (after : KindScope) : Flow → Prop
  | .next env => env.kinds = after
  | .returned none => True
  | .returned (some v) => Scalar.kindOf? ctx.ret = some v.kind

theorem Flow.OfKinds.of_returned {before after : KindScope} {value? : Option Scalar}
    (h : (Flow.returned value?).OfKinds ctx before) : (Flow.returned value?).OfKinds ctx after := by
  cases value? <;> exact h

theorem Bindings.length_kinds (env : Bindings) : env.kinds.length = env.length :=
  List.length_map _

/-- The environment at the end of a block: what the block declared, and what was in scope before. -/
theorem Bindings.exists_append {env outer : Bindings} {new : KindScope}
    (h : env.kinds = new ++ outer.kinds) :
    ∃ inner rest : Bindings, env = inner ++ rest ∧ inner.kinds = new ∧ rest.kinds = outer.kinds ∧
      env.drop (env.length - outer.length) = rest := by
  have hlen : env.length - outer.length = new.length := by
    have hlength := congrArg List.length h
    rw [List.length_append, length_kinds, length_kinds] at hlength
    omega
  have htake : Bindings.kinds (env.take new.length) = env.kinds.take new.length := List.map_take
  have hdrop : Bindings.kinds (env.drop new.length) = env.kinds.drop new.length := List.map_drop
  exact ⟨env.take new.length, env.drop new.length, (List.take_append_drop _ _).symm,
    by rw [htake, h, List.take_left], by rw [hdrop, h, List.drop_left], by rw [hlen]⟩

mutual

/-- A statement whose parts are of matching kinds goes on or returns. -/
theorem Stmt.exists_execute (hargs : Arguments ctx.params args) : (s : Stmt) → {env : Bindings} →
    {after : KindScope} → s.scope? ctx env.kinds = some after →
    ∃ flow, s.execute args env = some flow ∧ flow.OfKinds ctx after
  | .declareLocal name type value, env, after, h => by
    rw [scope?] at h
    split at h
    · next kind hkind =>
      split_ifs at h
      obtain rfl := Option.some.inj h
      obtain ⟨v, hv, rfl⟩ := value.exists_evaluate hargs hkind
      exact ⟨.next ((name, v) :: env), by rw [execute, hv, Option.map_some], rfl⟩
    · cases h
  | .setLocal name value, env, after, h => by
    rw [scope?] at h
    split at h
    · next kind hkind =>
      split_ifs at h with hlookup
      obtain rfl := Option.some.inj h
      obtain ⟨v, hv, rfl⟩ := value.exists_evaluate hargs hkind
      exact ⟨.next (env.assign name v), by rw [execute, hv, Option.map_some],
        Bindings.kinds_assign hlookup⟩
    · cases h
  | .expr value, env, after, h => by
    rw [scope?] at h
    split_ifs at h with hkind
    obtain rfl := Option.some.inj h
    obtain ⟨kind, hkind⟩ := Option.isSome_iff_exists.mp hkind
    obtain ⟨v, hv, _⟩ := value.exists_evaluate hargs hkind
    exact ⟨.next env, by rw [execute, hv, Option.map_some], rfl⟩
  | .ifThen cond body, env, after, h => by
    rw [scope?] at h
    split_ifs at h with hkinds
    obtain rfl := Option.some.inj h
    obtain ⟨v, hv, hkind⟩ := cond.exists_evaluate hargs hkinds.1
    obtain ⟨b, rfl⟩ := Scalar.eq_bool_of_kind hkind
    obtain ⟨inner, hinner⟩ := Option.isSome_iff_exists.mp hkinds.2
    cases b with
    | false => exact ⟨.next env, by rw [execute, hv], rfl⟩
    | true =>
      obtain ⟨flow, hflow, hof⟩ := Stmt.exists_executeAll hargs body hinner
      refine ⟨flow.leave env, by rw [execute, hv]; simp only [hflow, Option.map_some], ?_⟩
      cases flow with
      | returned value? => exact hof.of_returned
      | next env' =>
        obtain ⟨new, hnew, _⟩ := Stmt.scope_of_scopeAll? hinner
        have hkinds : env'.kinds = new ++ env.kinds := Eq.trans hof hnew
        obtain ⟨_, rest, _, _, hrest, hdrop⟩ := Bindings.exists_append hkinds
        exact (congrArg Bindings.kinds hdrop).trans hrest
  | .ret none, env, after, h => ⟨.returned none, by rw [execute], trivial⟩
  | .ret (some value), env, after, h => by
    rw [scope?] at h
    split at h
    · next kind hkind =>
      split_ifs at h with hret
      obtain ⟨v, hv, rfl⟩ := value.exists_evaluate hargs hkind
      exact ⟨.returned (some v), by rw [execute, hv, Option.map_some], hret⟩
    · cases h

theorem Stmt.exists_executeAll (hargs : Arguments ctx.params args) : (body : List Stmt) →
    {env : Bindings} → {after : KindScope} → Stmt.scopeAll? ctx env.kinds body = some after →
    ∃ flow, Stmt.executeAll args env body = some flow ∧ flow.OfKinds ctx after
  | [], env, after, h => ⟨.next env, by rw [executeAll], by
    rw [scopeAll?] at h
    exact Option.some.inj h⟩
  | s :: rest, env, after, h => by
    rw [scopeAll?] at h
    obtain ⟨middle, hs, hrest⟩ := Option.bind_eq_some_iff.mp h
    obtain ⟨flow, hflow, hof⟩ := s.exists_execute hargs hs
    cases flow with
    | returned value? => exact ⟨.returned value?, by rw [executeAll, hflow], hof.of_returned⟩
    | next env' =>
      obtain rfl : env'.kinds = middle := hof
      obtain ⟨flow, hrun, hof⟩ := Stmt.exists_executeAll hargs rest hrest
      exact ⟨flow, by rw [executeAll, hflow]; exact hrun, hof⟩

end

end

end ClassSynth
