import ClassSynth.Binding.Scope
import ClassSynth.Proofs.Body.Events

/-!
# The wrapped value in a bound template

Binding a template looks at the type of the wrapped value and never at the value: the expression is
the one for a value that is not known yet, a local variable, with the value in its place
(`Scope.bind_eq_fill`).
-/

namespace ClassSynth

open ClassPool (Step)

/-! ## Results that differ by a function -/

section Maps

variable {α β γ δ : Type}

/-- The first step does what the second one does, and its result is the function of the other. -/
def Maps (f : β → α) (step : Step α) (step' : Step β) : Prop := step = f <$> step'

namespace Maps

theorem pure {f : β → α} {a : α} {b : β} (h : a = f b) : Maps f (Pure.pure a) (Pure.pure b) :=
  h ▸ (map_pure f b).symm

theorem throw {f : β → α} {e : Error} : Maps f (MonadExcept.throw e) (MonadExcept.throw e) := rfl

theorem bind {f : β → α} {g : δ → γ} {step : Step γ} {step' : Step δ} {next : γ → Step α}
    {next' : δ → Step β} (h : Maps g step step') (hnext : ∀ a, Maps f (next (g a)) (next' a)) :
    Maps f (step >>= next) (step' >>= next') := by
  obtain rfl := h
  rw [Maps, bind_map_left, map_bind]
  exact bind_congr hnext

/-- Steps that begin with the same step. -/
theorem after {f : β → α} {step : Step γ} {next : γ → Step α} {next' : γ → Step β}
    (hnext : ∀ a, Maps f (next a) (next' a)) : Maps f (step >>= next) (step >>= next') :=
  bind (g := id) (id_map step).symm hnext

theorem ite {f : β → α} {c : Prop} [Decidable c] {step next : Step α} {step' next' : Step β}
    (h : Maps f step step') (hnext : Maps f next next') :
    Maps f (if c then step else next) (if c then step' else next') := by
  split_ifs
  · exact h
  · exact hnext

end Maps

end Maps

namespace Scope

variable (s : Scope) (w : Expr)

/-! ## Fields -/

theorem readField_fill (shown : Template) (target : Typed) (name : String) :
    Maps (Typed.fill w) (s.readField shown (target.fill w) name)
      (s.readField shown target name) := by
  unfold readField
  refine .ite (.after fun _ => ?_) ?_ <;>
    refine .ite (.after fun found => ?_) (.after fun found => ?_) <;>
    cases found with
    | some f => exact .pure rfl
    | none => exact .throw

theorem readFields_fill (shown : Template) (target : Typed) (names : List String) :
    Maps (Typed.fill w) (s.readFields shown (target.fill w) names)
      (s.readFields shown target names) := by
  unfold readFields
  induction names generalizing target with
  | nil => exact .pure rfl
  | cons name rest ih =>
    rw [List.foldlM_cons, List.foldlM_cons]
    exact (s.readField_fill w shown target name).bind ih

theorem readStatic_fill (owner : TypeName) (name : String) :
    Maps (Typed.fill w) (readStatic owner name) (readStatic owner name) := by
  refine .after fun found => ?_
  cases found with
  | some f => exact .pure rfl
  | none => exact .throw

theorem bindStaticPath_fill (shown : Template) (parts : List String) (n : Nat) :
    Maps (Typed.fill w) (s.bindStaticPath shown parts n) (s.bindStaticPath shown parts n) := by
  induction n with
  | zero => exact .throw
  | succ n ih =>
    unfold bindStaticPath
    refine .after fun found => ?_
    split
    · exact (readStatic_fill w _ _).bind fun v => s.readFields_fill w shown v _
    · exact ih

/-- A path reads no wrapped value. -/
theorem bindPath_fill (shown : Template) (parts : List String) :
    Maps (Typed.fill w) (s.bindPath shown parts) (s.bindPath shown parts) := by
  refine .after fun found => ?_
  cases found with
  | some f => exact s.readFields_fill w shown ⟨.getField .this f, f.type⟩ _
  | none => exact s.bindStaticPath_fill w shown parts _

/-! ## Calls -/

theorem select_fill (shown : Template) (owner : TypeName) (name : String)
    (candidates : List MethodSig) (args : List Typed) :
    Maps (fun call => (call.1, call.2.map (Expr.fill w)))
      (select shown owner name candidates (args.map (Typed.fill w)))
      (select shown owner name candidates args) := by
  have htypes : (args.map (Typed.fill w)).map Typed.type = args.map Typed.type := by
    rw [List.map_map]
    rfl
  unfold select
  rw [htypes]
  refine .after fun found => ?_
  cases found with
  | some a => exact .pure (congrArg (Prod.mk a.method) (Binding.convertArguments_fill w a args))
  | none => exact .throw

theorem staticCall_fill (owner : TypeName) (m : MethodSig) (args : List Expr) :
    staticCall owner m (args.map (Expr.fill w)) = (staticCall owner m args).fill w := by
  rw [← Expr.fillList_eq_map]
  rfl

theorem instanceCall_fill (receiver : Expr) (owner : TypeName) (m : MethodSig)
    (args : List Expr) :
    Maps (Typed.fill w)
      (s.instanceCall (Expr.fill w receiver) owner m (args.map (Expr.fill w)))
      (s.instanceCall receiver owner m args) := by
  refine .after fun onInterface => .pure ?_
  rw [← Expr.fillList_eq_map]
  rfl

/-- A selected method is called on its class or on a receiver. -/
theorem call_fill (receiver : Expr) (staticOwner owner : TypeName) (m : MethodSig)
    (args : List Expr) :
    Maps (Typed.fill w)
      (if m.isStatic then pure (staticCall staticOwner m (args.map (Expr.fill w)))
        else s.instanceCall (Expr.fill w receiver) owner m (args.map (Expr.fill w)))
      (if m.isStatic then pure (staticCall staticOwner m args)
        else s.instanceCall receiver owner m args) :=
  .ite (.pure (staticCall_fill w _ _ _)) (s.instanceCall_fill w _ _ _ _)

theorem callThis_fill (shown : Template) (name : String) (args : List Typed) :
    Maps (Typed.fill w) (s.callThis shown name (args.map (Typed.fill w)))
      (s.callThis shown name args) :=
  .after fun _ => .after fun _ => .after fun _ =>
    (select_fill w shown _ name _ args).bind fun _ => s.call_fill w .this _ _ _ _

theorem callOn_fill (shown : Template) (receiver : Typed) (name : String) (args : List Typed) :
    Maps (Typed.fill w) (s.callOn shown (receiver.fill w) name (args.map (Typed.fill w)))
      (s.callOn shown receiver name args) := by
  have hcall (candidates : List MethodSig) : Maps (Typed.fill w)
      (do
        let call ← select shown receiver.type name candidates (args.map (Typed.fill w))
        if call.1.isStatic then return staticCall call.1.owner call.1 call.2
        else s.instanceCall (Expr.fill w receiver.value) receiver.type call.1 call.2)
      (do
        let call ← select shown receiver.type name candidates args
        if call.1.isStatic then return staticCall call.1.owner call.1 call.2
        else s.instanceCall receiver.value receiver.type call.1 call.2) :=
    (select_fill w shown receiver.type name candidates args).bind fun call =>
      s.call_fill w receiver.value call.1.owner receiver.type call.1 call.2
  unfold callOn
  refine .ite (.after fun _ => ?_) ?_ <;>
    exact .ite (.after fun _ => .after fun _ => .after fun _ => hcall _) (.after hcall)

theorem callStatic_fill (shown : Template) (owner : TypeName) (name : String)
    (args : List Typed) :
    Maps (Typed.fill w) (callStatic shown owner name (args.map (Typed.fill w)))
      (callStatic shown owner name args) :=
  .after fun _ => (select_fill w shown owner name _ args).bind fun _ =>
    .pure (staticCall_fill w _ _ _)

theorem callPath_fill (shown path : Template) (parts : List String) (name : String)
    (args : List Typed) :
    Maps (Typed.fill w) (s.callPath shown path parts name (args.map (Typed.fill w)))
      (s.callPath shown path parts name args) := by
  refine .after fun found => .ite ?_ (.after fun owner => ?_)
  · exact (s.bindPath_fill w path parts).bind fun v => s.callOn_fill w shown v name args
  · cases owner with
    | some owner => exact callStatic_fill w shown owner name args
    | none => exact (s.bindPath_fill w shown parts).bind fun v => s.callOn_fill w shown v name args

theorem create_fill (shown : Template) (owner : TypeName) (args : List Typed) :
    Maps (Typed.fill w) (create shown owner (args.map (Typed.fill w)))
      (create shown owner args) := by
  refine .after fun _ => (select_fill w shown owner constructorName _ args).bind fun call =>
    .pure ?_
  rw [← Expr.fillList_eq_map]
  rfl

/-! ## Templates -/

/-- The scope with a local variable in the place of the wrapped value. -/
def hole (s : Scope) : Scope :=
  { s with placeholder := s.placeholder.map fun v => ⟨.localVar "%s" v.type, v.type⟩ }

theorem allParams_fill : s.allParams.map (Typed.fill w) = s.allParams := by
  rw [allParams, List.map_map]
  rfl

/-- The wrapped value. -/
def wrapped (s : Scope) : Expr := (s.placeholder.map Typed.value).getD .null

theorem bindPath_hole (shown : Template) (parts : List String) :
    s.hole.bindPath shown parts = s.bindPath shown parts := by
  have hstatic (n : Nat) :
      s.hole.bindStaticPath shown parts n = s.bindStaticPath shown parts n := by
    induction n with
    | zero => rfl
    | succ n ih =>
      unfold bindStaticPath
      rw [ih]
      rfl
  unfold bindPath
  rw [hstatic]
  rfl

theorem callPath_hole (shown path : Template) (parts : List String) (name : String)
    (args : List Typed) :
    s.hole.callPath shown path parts name args = s.callPath shown path parts name args := by
  unfold callPath
  rw [bindPath_hole, bindPath_hole]
  rfl

mutual

/-- The wrapped value is only put in its place. -/
theorem bind_eq_fill : (t : Template) → Maps (Typed.fill s.wrapped) (s.bind t) (s.hole.bind t)
  | .placeholder => by
    rw [bind, bind, hole]
    cases hplaceholder : s.placeholder with
    | some v => exact .pure (by rw [Typed.fill, Expr.fill, wrapped, hplaceholder]; rfl)
    | none => exact .throw
  | .this => .ite .throw (.pure rfl)
  | .param index => by
    rw [bind, bind]
    change Maps _ (match Expr.paramType? s.params index with | some _ => _ | none => _)
      (match Expr.paramType? s.params index with | some _ => _ | none => _)
    cases Expr.paramType? s.params index with
    | some t => exact .pure rfl
    | none => exact .throw
  | .allParams => .throw
  | .null | .bool _ | .int _ | .str _ => .pure rfl
  | .path parts => by
    rw [bind, bind, bindPath_hole]
    exact s.bindPath_fill s.wrapped (.path parts) parts
  | .field target name =>
    (bind_eq_fill target).bind fun v => s.readField_fill s.wrapped (.field target name) v name
  | .call target name args =>
    (bindArguments_eq_fill args).bind fun typed =>
      bindCall_eq_fill (.call target name args) name typed target
  | .new className args => by
    refine .after fun owner? => ?_
    cases owner? with
    | none => exact .throw
    | some owner =>
      exact (bindArguments_eq_fill args).bind fun typed => create_fill s.wrapped _ owner typed

theorem bindArguments_eq_fill : (ts : List Template) →
    Maps (List.map (Typed.fill s.wrapped)) (s.bindArguments ts) (s.hole.bindArguments ts)
  | [] => .pure rfl
  | t :: rest => by
    unfold bindArguments
    split
    · next heq => cases heq
    · next rest' heq =>
      obtain ⟨rfl, rfl⟩ := List.cons.inj heq
      refine (bindArguments_eq_fill rest).bind fun typed => .pure ?_
      rw [List.map_append]
      exact congrArg (· ++ _) (s.allParams_fill s.wrapped).symm
    · next t' rest' _ heq =>
      obtain ⟨rfl, rfl⟩ := List.cons.inj heq
      exact (bind_eq_fill t).bind fun _ => (bindArguments_eq_fill rest).bind fun _ => .pure rfl

theorem bindCall_eq_fill (shown : Template) (name : String) (args : List Typed) :
    (target : Option Template) →
    Maps (Typed.fill s.wrapped)
      (s.bindCall shown name (args.map (Typed.fill s.wrapped)) target)
      (s.hole.bindCall shown name args target)
  | none => s.callThis_fill s.wrapped shown name args
  | some t => by
    unfold bindCall
    split
    · next heq => cases heq
    · next parts heq =>
      rw [callPath_hole]
      exact s.callPath_fill s.wrapped shown (.path parts) parts name args
    · next t' _ heq =>
      obtain rfl := Option.some.inj heq
      exact (bind_eq_fill t).bind fun v => s.callOn_fill s.wrapped shown v name args

end

end Scope

end ClassSynth
