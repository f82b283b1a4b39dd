import ClassSynth.Binding.Scope
import ClassSynth.Proofs.Kept
import ClassSynth.Proofs.Pool.Lookup
import ClassSynth.Synthesis.Guard

/-!
# Steps that consist of lookups

Conversions, overloads and bound templates look classes up and do nothing else. So what holds of a
lookup and of a walk over a hierarchy, and of what is composed of steps of which it holds
(`ClassPool.Closed`), holds of all of them. Examples are that a step only loads classes, and that it
does not depend on those loaded before.
-/

namespace ClassSynth

namespace ClassPool

variable {α β : Type}

/-- A property that lookups have, and that steps have if they are composed of steps that have it. -/
structure Closed (L : ∀ {α : Type}, Step α → Prop) : Prop where
  pure : ∀ {α : Type} (a : α), L (Pure.pure a : Step α)
  throw : ∀ {α : Type} (e : Error), L (MonadExcept.throw e : Step α)
  bind : ∀ {α β : Type} {step : Step α} {f : α → Step β}, L step → (∀ a, L (f a)) → L (step >>= f)
  find : ∀ name, L (find name)
  hierarchyOf : ∀ roots, L (hierarchyOf roots)

variable {L : ∀ {α : Type}, Step α → Prop} (h : Closed L)

include h

theorem Closed.lift (x : Except Error α) : L (ClassPool.lift x) := by
  cases x with
  | ok a => exact h.pure a
  | error e => exact h.throw e

theorem Closed.foldlM {f : β → α → Step β} (hf : ∀ b a, L (f b a)) (xs : List α) (b : β) :
    L (xs.foldlM f b) := by
  induction xs generalizing b with
  | nil => exact h.pure b
  | cons x xs ih =>
    rw [List.foldlM_cons]
    exact h.bind (hf b x) ih

omit h in
theorem closed_ite {c : Prop} [Decidable c] {step step' : Step α} (hstep : L step)
    (hstep' : L step') : L (if c then step else step') := by
  split_ifs
  · exact hstep
  · exact hstep'

/-! ## Hierarchies -/

theorem closed_getUnit (name : String) : L (getUnit name) := by
  refine h.bind (h.find name) fun found => ?_
  cases found with
  | some unit => exact h.pure unit
  | none => exact h.throw _

theorem closed_supertypes (name : TypeName) : L (supertypes name) :=
  h.bind (h.hierarchyOf _) fun _ => h.pure _

theorem closed_isSubtype (sub sup : TypeName) : L (isSubtype sub sup) := by
  rw [isSubtype]
  refine closed_ite (h.pure _) (closed_ite (h.pure _) (closed_ite (h.pure _) ?_))
  split
  · next a b _ _ => exact closed_isSubtype a b
  · exact h.bind (closed_supertypes h _) fun _ => h.pure _
  · exact h.pure _
termination_by sub.text.length
decreasing_by exact TypeName.length_lt_of_element? ‹_›

theorem closed_collectMethods (roots : List TypeName) (name : String) :
    L (collectMethods roots name) :=
  h.bind (h.hierarchyOf roots) fun _ => h.foldlM (fun _ _ =>
    h.bind (closed_getUnit h _) fun _ => h.bind (h.lift _) fun _ => h.pure _) _ _

theorem closed_methodsNamed (owner : TypeName) (name : String) : L (methodsNamed owner name) :=
  closed_collectMethods h _ _

theorem closed_fieldIn (name : String) (types : List TypeName) : L (fieldIn name types) := by
  induction types with
  | nil => exact h.pure _
  | cons t rest ih =>
    refine h.bind (closed_getUnit h _) fun _ => h.bind (h.lift _) fun found => ?_
    cases found with
    | some f => exact h.pure _
    | none => exact ih

theorem closed_findFieldIn (roots : List TypeName) (name : String) :
    L (findFieldIn roots name) :=
  h.bind (h.hierarchyOf roots) fun _ => closed_fieldIn h _ _

theorem closed_findField (owner : TypeName) (name : String) : L (findField owner name) :=
  closed_findFieldIn h _ _

end ClassPool

open ClassPool (Step Closed closed_ite closed_getUnit closed_isSubtype closed_collectMethods
  closed_methodsNamed closed_findFieldIn closed_findField)

variable {L : ∀ {α : Type}, Step α → Prop} (h : Closed L)

include h

/-! ## Conversions and overloads -/

namespace Binding

theorem closed_conversionCost (source target : TypeName) : L (conversionCost source target) := by
  refine closed_ite (h.pure _) (closed_ite (h.bind (closed_isSubtype h _ _) fun _ => h.pure _)
    (closed_ite (h.pure _) (closed_ite ?_ (h.pure _))))
  split
  · exact h.bind (closed_isSubtype h _ _) fun _ => h.pure _
  · exact h.pure _

theorem closed_totalCost (pairs : List (TypeName × TypeName)) : L (totalCost pairs) := by
  induction pairs with
  | nil => exact h.pure _
  | cons pair rest ih =>
    refine h.bind (closed_conversionCost h _ _) fun found => ?_
    cases found with
    | none => exact h.pure _
    | some cost => exact h.bind ih fun _ => h.pure _

theorem closed_fixedCost (params args : List TypeName) : L (fixedCost params args) :=
  closed_ite (closed_totalCost h _) (h.pure _)

theorem closed_packedCost (params args : List TypeName) : L (packedCost params args) := by
  unfold packedCost
  split
  · exact h.pure _
  · refine closed_ite (h.pure _) (h.bind (closed_fixedCost h _ _) fun found => ?_)
    cases found with
    | none => exact h.pure _
    | some cost => exact h.bind (closed_totalCost h _) fun _ => h.pure _

theorem closed_adapt (v : Typed) (target : TypeName) : L (adapt v target) := by
  refine closed_ite (h.pure _) ?_
  dsimp only
  split
  · exact closed_ite (h.throw _) (h.bind (closed_isSubtype h _ _) fun _ =>
      closed_ite (h.pure _) (h.pure _))
  · exact closed_ite (h.pure _) (h.throw _)
  · exact h.bind (closed_isSubtype h _ _) fun _ => closed_ite (h.pure _) (h.throw _)
  · exact h.pure _

theorem closed_applicable (args : List TypeName) (m : MethodSig) : L (applicable args m) := by
  refine h.bind (closed_fixedCost h _ _) fun found => ?_
  cases found with
  | some cost => exact h.pure _
  | none => exact closed_ite (h.bind (closed_packedCost h _ _) fun _ => h.pure _) (h.pure _)

theorem closed_cheapest (args : List TypeName) (candidates : List MethodSig) :
    L (cheapest args candidates) :=
  h.foldlM (fun _ m => h.bind (closed_applicable h args m) fun _ => h.pure _) _ _

end Binding

/-! ## Templates -/

namespace Scope

variable (s : Scope)

theorem closed_findSibling (name : String) : L (s.findSibling name) :=
  closed_ite (h.pure _) (h.bind (h.find _) fun _ => h.pure _)

theorem closed_findClass (parts : List String) : L (s.findClass parts) :=
  h.bind (h.find _) fun _ => closed_ite (h.pure _) (closed_ite (h.pure _)
    (closed_ite (h.pure _) (closed_findSibling h s _)))

theorem closed_roots : L s.roots := by
  unfold roots
  split
  · exact h.lift _
  · exact h.pure _

theorem closed_ownMethods (name : String) : L (s.ownMethods name) := by
  unfold ownMethods
  split
  · exact h.bind (h.lift _) fun _ => h.pure _
  · exact h.pure _

theorem closed_ownField (name : String) : L (s.ownField name) := by
  unfold ownField
  split
  · exact h.lift _
  · exact h.pure _

theorem closed_thisField (name : String) : L (s.thisField name) := by
  refine h.bind (closed_ownField h s name) fun own => ?_
  cases own with
  | some f => exact h.pure _
  | none => exact h.bind (closed_roots h s) fun _ =>
      h.bind (closed_findFieldIn h _ _) fun _ => h.pure _

theorem closed_readField (shown : Template) (target : Typed) (name : String) :
    L (s.readField shown target name) := by
  unfold readField
  refine closed_ite (h.bind (h.throw _) fun _ => ?_) ?_ <;>
    refine closed_ite (h.bind (closed_thisField h s name) fun found => ?_)
      (h.bind (closed_findField h _ _) fun found => ?_) <;>
    cases found with
    | some f => exact h.pure _
    | none => exact h.throw _

theorem closed_readFields (shown : Template) (target : Typed) (names : List String) :
    L (s.readFields shown target names) :=
  h.foldlM (closed_readField h s shown) _ _

theorem closed_readStatic (owner : TypeName) (name : String) : L (readStatic owner name) := by
  refine h.bind (closed_findField h _ _) fun found => ?_
  cases found with
  | some f => exact h.pure _
  | none => exact h.throw _

theorem closed_bindStaticPath (shown : Template) (parts : List String) (n : Nat) :
    L (s.bindStaticPath shown parts n) := by
  induction n with
  | zero => exact h.throw _
  | succ n ih =>
    unfold bindStaticPath
    refine h.bind (closed_findClass h s _) fun found => ?_
    split
    · exact h.bind (closed_readStatic h _ _) fun _ => closed_readFields h s _ _ _
    · exact ih

theorem closed_headField (parts : List String) : L (s.headField parts) := by
  cases parts with
  | nil => exact h.pure _
  | cons name rest => exact closed_ite (h.pure _) (closed_thisField h s name)

theorem closed_bindPath (shown : Template) (parts : List String) :
    L (s.bindPath shown parts) := by
  refine h.bind (closed_headField h s parts) fun found => ?_
  cases found with
  | some f => exact closed_readFields h s _ _ _
  | none => exact closed_bindStaticPath h s _ _ _

theorem closed_select (shown : Template) (owner : TypeName) (name : String)
    (candidates : List MethodSig) (args : List Typed) :
    L (select shown owner name candidates args) := by
  refine h.bind (Binding.closed_cheapest h _ _) fun found => ?_
  cases found with
  | some a => exact h.pure _
  | none => exact h.throw _

theorem closed_ownerIsInterface (owner : TypeName) : L (s.ownerIsInterface owner) := by
  unfold ownerIsInterface
  split
  · exact closed_ite (h.pure _) (h.bind (closed_getUnit h _) fun _ => h.pure _)
  · exact h.bind (closed_getUnit h _) fun _ => h.pure _

theorem closed_instanceCall (receiver : Expr) (owner : TypeName) (m : MethodSig)
    (args : List Expr) : L (s.instanceCall receiver owner m args) :=
  h.bind (closed_ownerIsInterface h s owner) fun _ => h.pure _

theorem closed_callThis (shown : Template) (name : String) (args : List Typed) :
    L (s.callThis shown name args) :=
  h.bind (closed_ownMethods h s name) fun _ => h.bind (closed_roots h s) fun _ =>
    h.bind (closed_collectMethods h _ _) fun _ => h.bind (closed_select h _ _ _ _ _) fun _ =>
    closed_ite (h.pure _) (closed_instanceCall h s _ _ _ _)

theorem closed_callOn (shown : Template) (receiver : Typed) (name : String) (args : List Typed) :
    L (s.callOn shown receiver name args) := by
  have hselect : ∀ candidates : List MethodSig, L (do
      let call ← select shown receiver.type name candidates args
      if call.1.isStatic then return staticCall call.1.owner call.1 call.2
      else s.instanceCall receiver.value receiver.type call.1 call.2) := fun candidates =>
    h.bind (closed_select h _ _ _ _ _) fun _ =>
      closed_ite (h.pure _) (closed_instanceCall h s _ _ _ _)
  unfold callOn
  refine closed_ite (h.bind (h.throw _) fun _ => ?_) ?_ <;>
    exact closed_ite (h.bind (closed_ownMethods h s name) fun _ =>
      h.bind (closed_roots h s) fun _ => h.bind (closed_collectMethods h _ _) fun _ => hselect _)
      (h.bind (closed_methodsNamed h _ _) hselect)

theorem closed_callStatic (shown : Template) (owner : TypeName) (name : String)
    (args : List Typed) : L (callStatic shown owner name args) :=
  h.bind (closed_methodsNamed h _ _) fun _ => h.bind (closed_select h _ _ _ _ _) fun _ => h.pure _

theorem closed_callPath (shown path : Template) (parts : List String) (name : String)
    (args : List Typed) : L (s.callPath shown path parts name args) := by
  refine h.bind (closed_headField h s parts) fun found => closed_ite ?_ ?_
  · exact h.bind (closed_bindPath h s _ _) fun _ => closed_callOn h s _ _ _ _
  · refine h.bind (closed_findClass h s parts) fun owner => ?_
    cases owner with
    | some owner => exact closed_callStatic h _ _ _ _
    | none => exact h.bind (closed_bindPath h s _ _) fun _ => closed_callOn h s _ _ _ _

theorem closed_create (shown : Template) (owner : TypeName) (args : List Typed) :
    L (create shown owner args) :=
  h.bind (closed_methodsNamed h _ _) fun _ => h.bind (closed_select h _ _ _ _ _) fun _ => h.pure _

mutual

theorem closed_bind : (t : Template) → L (s.bind t)
  | .placeholder => by
    rw [bind]
    split
    · exact h.pure _
    · exact h.throw _
  | .this => closed_ite (h.throw _) (h.pure _)
  | .param index => by
    rw [bind]
    split
    · exact h.pure _
    · exact h.throw _
  | .allParams => h.throw _
  | .null => h.pure _
  | .bool _ => h.pure _
  | .int _ => h.pure _
  | .str _ => h.pure _
  | .path parts => closed_bindPath h s _ parts
  | .field target name => h.bind (closed_bind target) fun _ => closed_readField h s _ _ name
  | .call target name args =>
    h.bind (closed_bindArguments args) fun _ => closed_bindCall _ name _ target
  | .new className args => by
    rw [bind]
    refine h.bind (closed_findClass h s _) fun owner? => ?_
    cases owner? with
    | none => exact h.throw _
    | some owner => exact h.bind (closed_bindArguments args) fun _ => closed_create h _ owner _

theorem closed_bindArguments : (ts : List Template) → L (s.bindArguments ts)
  | [] => h.pure _
  | t :: rest => by
    unfold bindArguments
    split
    · next heq => cases heq
    · next rest' heq =>
      obtain ⟨rfl, rfl⟩ := List.cons.inj heq
      exact h.bind (closed_bindArguments rest) fun _ => h.pure _
    · next t' rest' _ heq =>
      obtain ⟨rfl, rfl⟩ := List.cons.inj heq
      exact h.bind (closed_bind t) fun _ => h.bind (closed_bindArguments rest) fun _ => h.pure _

theorem closed_bindCall (shown : Template) (name : String) (args : List Typed) :
    (target : Option Template) → L (s.bindCall shown name args target)
  | none => closed_callThis h s shown name args
  | some t => by
    unfold bindCall
    split
    · next heq => cases heq
    · next parts heq => exact closed_callPath h s shown _ parts name args
    · next t' _ heq =>
      obtain rfl := Option.some.inj heq
      exact h.bind (closed_bind t) fun _ => closed_callOn h s shown _ name args

end

end Scope

end ClassSynth

/-!
## Lookups of templates and guards

Walks over hierarchies, conversions, overloads, bound templates and guards look classes up and
change nothing: the pool loads classes, whether they fail or not.
-/

namespace ClassSynth

/-! ### Hierarchies -/

namespace ClassPool

theorem keeps_visit (w : Walk) (name : TypeName) : Keeps Loads (visit w name) := by
  refine .ite .pure ((keeps_find _).bind fun found => ?_)
  cases found with
  | some unit => exact Keeps.lift.bind fun _ => .pure
  | none => exact Keeps.get.bind fun _ => .ite .throw .pure

theorem keeps_walk (fuel : Nat) (w : Walk) : Keeps Loads (walk fuel w) := by
  induction fuel generalizing w with
  | zero => exact .pure
  | succ fuel ih => exact .ite .pure (Keeps.bind (.foldlM keeps_visit _ _) ih)

theorem keeps_hierarchyOf (roots : List TypeName) : Keeps Loads (hierarchyOf roots) :=
  Keeps.get.bind fun _ => (keeps_walk _ _).bind fun _ => .pure

/-- What consists of lookups only loads classes. -/
theorem closed_loads : Closed (Keeps Loads) where
  pure _ := .pure
  throw _ := .throw
  bind := .bind
  find := keeps_find
  hierarchyOf := keeps_hierarchyOf

theorem keeps_isSubtype (sub sup : TypeName) : Keeps Loads (isSubtype sub sup) :=
  closed_isSubtype closed_loads sub sup

theorem keeps_findField (owner : TypeName) (name : String) :
    Keeps Loads (findField owner name) :=
  closed_findField closed_loads owner name

end ClassPool

open ClassPool (Loads keeps_getUnit closed_loads)

/-! ### Conversions -/

theorem Binding.keeps_adapt (v : Typed) (target : TypeName) : Keeps Loads (adapt v target) :=
  closed_adapt closed_loads v target

/-! ### Templates -/

namespace Scope

variable (s : Scope)

theorem keeps_findClass (parts : List String) : Keeps Loads (s.findClass parts) :=
  closed_findClass closed_loads s parts

theorem keeps_roots : Keeps Loads s.roots :=
  closed_roots closed_loads s

theorem keeps_thisField (name : String) : Keeps Loads (s.thisField name) :=
  closed_thisField closed_loads s name

theorem keeps_ownerIsInterface (owner : TypeName) : Keeps Loads (s.ownerIsInterface owner) :=
  closed_ownerIsInterface closed_loads s owner

theorem keeps_bind (t : Template) : Keeps Loads (s.bind t) :=
  closed_bind closed_loads s t

end Scope

/-! ### Guards -/

theorem Synthesis.keeps_guard (index : Nat) (d : NonNullDirective) :
    Keeps Loads (guard index d) := by
  unfold guard
  dsimp only
  split
  · exact (keeps_getUnit _).bind fun _ => .ite .pure .throw
  · exact (keeps_getUnit _).bind fun _ => .pure
  · exact (keeps_getUnit _).bind fun _ => .pure

theorem Synthesis.keeps_guards (m : MethodDeclaration) : Keeps Loads (guards m) :=
  .mapM (fun _ => keeps_guard _ _) _

end ClassSynth
