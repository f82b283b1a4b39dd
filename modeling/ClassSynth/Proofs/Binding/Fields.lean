import ClassSynth.Binding.Scope
import ClassSynth.Proofs.Body.Occurrences
import ClassSynth.Proofs.Kept

/-!
# Fields of bound templates

The expression that a template stands for reads fields of the class under construction only as that
class declares or inherits them, apart from what the value in the place of the placeholder reads
(`ensures_bind`). Fields of other classes are found in the pool.
-/

namespace ClassSynth

namespace ClassUnit

/-- The class declares the field first under its name, with its type. -/
def Shows (c : ClassUnit) (f : FieldRef) : Prop :=
  ∃ sig, c.field? f.name = .ok (some sig) ∧ f.type = sig.type

/-- A lookup finds the field above the class. -/
def Inherits (c : ClassUnit) (f : FieldRef) : Prop :=
  ∃ roots pool sig, c.directSupertypes = .ok roots ∧
    (ClassPool.run pool (ClassPool.findFieldIn roots f.name)).1 = .ok (some sig) ∧ f.type = sig.type

/-- If the field is one of the class itself, the class declares or inherits it. -/
def Offers (c : ClassUnit) (f : FieldRef) : Prop :=
  f.owner = c.name → c.Shows f ∨ c.Inherits f

end ClassUnit

/-- All fields that the expression reads have the property. -/
def Expr.ReadsOnly (P : FieldRef → Prop) (e : Expr) : Prop :=
  ∀ f ∈ e.fieldRefs, P f

/-! ## Conversions -/

theorem Binding.ensures_adapt (v : Typed) (target : TypeName) :
    Ensures (Binding.adapt v target) fun e => e.fieldRefs = v.value.fieldRefs := by
  unfold Binding.adapt
  refine .ite (fun _ => .pure rfl) fun _ => ?_
  split
  · refine .ite (fun _ => .throw) fun _ => Ensures.trivial.bind fun found _ => ?_
    exact .ite (fun _ => .pure rfl) fun _ => .pure rfl
  · exact .ite (fun _ => .pure rfl) fun _ => .throw
  · refine Ensures.trivial.bind fun found _ => ?_
    exact .ite (fun _ => .pure rfl) fun _ => .throw
  · refine .pure ?_
    split_ifs <;> rfl

/-- The scope of a method of the class. All fields that the class offers have the property, and all
fields that the value in the place of the placeholder reads. -/
structure Scope.Within (s : Scope) (c : ClassUnit) (P : FieldRef → Prop) : Prop where
  current : s.current = some c
  thisClass : s.thisClass = c.name
  offers : ∀ f, c.Offers f → P f
  placeholder : ∀ v, s.placeholder = some v → v.value.ReadsOnly P

namespace Scope

variable {c : ClassUnit} {s : Scope} {P : FieldRef → Prop}

/-! ## Fields -/

theorem ensures_thisField (h : s.Within c P) (name : String) :
    Ensures (s.thisField name) fun found => ∀ f ∈ found, P f := by
  have hown : Ensures (s.ownField name) fun found => c.field? name = .ok found := by
    unfold ownField
    rw [h.current]
    exact .lift fun _ hlookup => hlookup
  have hroots : Ensures s.roots fun roots => c.directSupertypes = .ok roots := by
    unfold roots
    rw [h.current]
    exact .lift fun _ hlookup => hlookup
  have hshown : ∀ found : Option FieldSig,
      (∀ sig, found = some sig → c.Offers { owner := c.name, name, type := sig.type }) →
      Ensures (pure (found.map fun f => { owner := s.thisClass, name, type := f.type }) :
        ClassPool.Step (Option FieldRef)) fun found => ∀ f ∈ found, P f := by
    refine fun found hoffers => .pure fun f hf => ?_
    obtain ⟨sig, hsig, rfl⟩ := Option.map_eq_some_iff.mp (Option.mem_def.mp hf)
    exact h.offers _ (h.thisClass ▸ hoffers sig hsig)
  unfold thisField
  refine hown.bind fun own hfield => ?_
  cases own with
  | some sig =>
    refine hshown (some sig) fun sig' hsig' _ => .inl ⟨sig, hfield, ?_⟩
    exact congrArg FieldSig.type (Option.some.inj hsig').symm
  | none =>
    refine hroots.bind fun roots hsupertypes => ?_
    have hlookup : Ensures (ClassPool.findFieldIn roots name) fun found =>
        ∀ sig, found = some sig → c.Offers { owner := c.name, name, type := sig.type } :=
      fun pool found _ hrun sig hsig _ =>
        .inr ⟨roots, pool, sig, hsupertypes, hsig ▸ congrArg Prod.fst hrun, rfl⟩
    exact hlookup.bind hshown

theorem ensures_readField (h : s.Within c P) (shown : Template) {target : Typed} (name : String)
    (htarget : target.value.ReadsOnly P) :
    Ensures (s.readField shown target name) fun v => v.value.ReadsOnly P := by
  have hread : ∀ f, P f → Expr.ReadsOnly P (target.value.getField f) := by
    intro f hf g hg
    rw [Expr.fieldRefs, List.mem_append, List.mem_singleton] at hg
    rcases hg with hg | rfl
    · exact htarget g hg
    · exact hf
  unfold readField
  refine .ite (fun _ => Ensures.throw.bind (P := fun _ => False) fun _ hfalse => hfalse.elim)
    fun _ => .ite (fun _ => ?_) fun hother => ?_
  · refine (ensures_thisField h name).bind fun found hfound => ?_
    cases found with
    | none => exact .throw
    | some f => exact .pure (hread f (hfound f rfl))
  · refine Ensures.trivial.bind fun found _ => ?_
    cases found with
    | none => exact .throw
    | some sig =>
      refine .pure (hread _ (h.offers _ fun howner => ?_))
      exact absurd (beq_iff_eq.mpr (howner.trans h.thisClass.symm)) hother

theorem ensures_readFields (h : s.Within c P) (shown : Template) {target : Typed}
    (names : List String)
    (htarget : target.value.ReadsOnly P) :
    Ensures (s.readFields shown target names) fun v => v.value.ReadsOnly P :=
  .foldlM (fun _ name hv => ensures_readField h shown name hv) names htarget

theorem ensures_readStatic (owner : TypeName) (name : String) :
    Ensures (readStatic owner name) fun v => v.value.ReadsOnly P := by
  unfold readStatic
  refine Ensures.trivial.bind fun found _ => ?_
  cases found with
  | some f => exact .pure fun g hg => absurd hg List.not_mem_nil
  | none => exact .throw

theorem ensures_bindStaticPath (h : s.Within c P) (shown : Template) (parts : List String)
    (n : Nat) :
    Ensures (s.bindStaticPath shown parts n) fun v => v.value.ReadsOnly P := by
  induction n with
  | zero => exact .throw
  | succ n ih =>
    unfold bindStaticPath
    refine Ensures.trivial.bind fun found _ => ?_
    split
    · exact (ensures_readStatic _ _).bind fun v hv => ensures_readFields h _ _ hv
    · exact ih

theorem ensures_headField (h : s.Within c P) (parts : List String) :
    Ensures (s.headField parts) fun found => ∀ f ∈ found, P f := by
  cases parts with
  | nil => exact .pure fun f hf => absurd hf (by simp)
  | cons name rest =>
    exact .ite (fun _ => .pure fun f hf => absurd hf (by simp))
      fun _ => ensures_thisField h name

theorem ensures_bindPath (h : s.Within c P) (shown : Template) (parts : List String) :
    Ensures (s.bindPath shown parts) fun v => v.value.ReadsOnly P := by
  unfold bindPath
  refine (ensures_headField h parts).bind fun found hf => ?_
  cases found with
  | none => exact ensures_bindStaticPath h shown parts _
  | some f =>
    refine ensures_readFields h shown _ fun g hg => ?_
    obtain rfl : g = f := by simpa [Expr.fieldRefs] using hg
    exact hf g rfl

/-! ## Calls -/

theorem ensures_select (shown : Template) (owner : TypeName) (name : String)
    (candidates : List MethodSig) {args : List Typed} (hargs : ∀ v ∈ args, v.value.ReadsOnly P) :
    Ensures (select shown owner name candidates args) fun call =>
      ∀ f ∈ Expr.fieldRefsList call.2, P f := by
  unfold select
  refine Ensures.trivial.bind fun found _ => ?_
  cases found with
  | none => exact .throw
  | some a =>
    refine .pure fun f hf => ?_
    obtain ⟨v, hv, hread⟩ := Binding.exists_of_mem_convertArguments hf
    exact hargs v hv f hread

/-- A selected method is called on its class or on a receiver. -/
theorem ensures_call {receiver : Expr} (hreceiver : receiver.ReadsOnly P)
    (staticOwner owner : TypeName)
    {call : MethodSig × List Expr} (hargs : ∀ f ∈ Expr.fieldRefsList call.2, P f) :
    Ensures (if call.1.isStatic then pure (staticCall staticOwner call.1 call.2)
      else s.instanceCall receiver owner call.1 call.2) fun v => v.value.ReadsOnly P := by
  refine .ite (fun _ => .pure hargs) fun _ => Ensures.trivial.bind fun onInterface _ => .pure ?_
  intro f hf
  rcases List.mem_append.mp hf with hf | hf
  · exact hreceiver f hf
  · exact hargs f hf

theorem ensures_callThis (shown : Template) (name : String) {args : List Typed}
    (hargs : ∀ v ∈ args, v.value.ReadsOnly P) :
    Ensures (s.callThis shown name args) fun v => v.value.ReadsOnly P := by
  have hthis : Expr.ReadsOnly P .this := fun f hf => absurd hf List.not_mem_nil
  exact Ensures.trivial.bind fun _ _ => Ensures.trivial.bind fun _ _ => Ensures.trivial.bind
    fun _ _ => (ensures_select shown _ name _ hargs).bind fun _ => ensures_call hthis _ _

theorem ensures_callOn (shown : Template) {receiver : Typed}
    (hreceiver : receiver.value.ReadsOnly P)
    (name : String) {args : List Typed} (hargs : ∀ v ∈ args, v.value.ReadsOnly P) :
    Ensures (s.callOn shown receiver name args) fun v => v.value.ReadsOnly P := by
  have hcall : ∀ candidates, Ensures (do
      let call ← select shown receiver.type name candidates args
      if call.1.isStatic then pure (staticCall call.1.owner call.1 call.2)
      else s.instanceCall receiver.value receiver.type call.1 call.2)
      fun v => v.value.ReadsOnly P :=
    fun candidates => (ensures_select shown _ name candidates hargs).bind fun _ =>
      ensures_call hreceiver _ _
  refine .ite (fun _ => Ensures.throw.bind (P := fun _ => False) fun _ hfalse => hfalse.elim)
    fun _ => ?_
  refine .ite (fun _ => ?_) fun _ => Ensures.trivial.bind fun _ _ => hcall _
  exact Ensures.trivial.bind fun _ _ => Ensures.trivial.bind fun _ _ => Ensures.trivial.bind
    fun _ _ => hcall _

theorem ensures_callStatic (shown : Template) (owner : TypeName) (name : String)
    {args : List Typed} (hargs : ∀ v ∈ args, v.value.ReadsOnly P) :
    Ensures (callStatic shown owner name args) fun v => v.value.ReadsOnly P :=
  Ensures.trivial.bind fun _ _ => (ensures_select shown owner name _ hargs).bind
    fun _ hcall => .pure hcall

theorem ensures_callPath (h : s.Within c P) (shown path : Template) (parts : List String)
    (name : String)
    {args : List Typed} (hargs : ∀ v ∈ args, v.value.ReadsOnly P) :
    Ensures (s.callPath shown path parts name args) fun v => v.value.ReadsOnly P := by
  refine Ensures.trivial.bind fun found _ => .ite (fun _ => ?_) fun _ => ?_
  · exact (ensures_bindPath h path parts).bind fun v hv =>
      ensures_callOn shown hv name hargs
  · refine Ensures.trivial.bind fun owner? _ => ?_
    cases owner? with
    | some owner => exact ensures_callStatic shown owner name hargs
    | none =>
      exact (ensures_bindPath h shown parts).bind fun v hv =>
        ensures_callOn shown hv name hargs

theorem ensures_create (shown : Template) (owner : TypeName) {args : List Typed}
    (hargs : ∀ v ∈ args, v.value.ReadsOnly P) :
    Ensures (create shown owner args) fun v => v.value.ReadsOnly P :=
  Ensures.trivial.bind fun _ _ => (ensures_select shown owner constructorName _ hargs).bind
    fun _ hcall => .pure hcall

/-! ## Templates -/

mutual

theorem ensures_bind (h : s.Within c P) :
    (t : Template) → Ensures (s.bind t) fun v => v.value.ReadsOnly P
  | .placeholder => by
    rw [bind]
    split
    · next v hv => exact .pure (h.placeholder v hv)
    · exact .throw
  | .this => .ite (fun _ => .throw) fun _ => .pure fun f hf => absurd hf List.not_mem_nil
  | .param index => by
    rw [bind]
    split
    · exact .pure fun f hf => absurd hf List.not_mem_nil
    · exact .throw
  | .allParams => .throw
  | .null => .pure fun f hf => absurd hf List.not_mem_nil
  | .bool value => .pure fun f hf => absurd hf List.not_mem_nil
  | .int value => .pure fun f hf => absurd hf List.not_mem_nil
  | .str value => .pure fun f hf => absurd hf List.not_mem_nil
  | .path parts => ensures_bindPath h _ parts
  | .field target name => (ensures_bind h target).bind fun v hv =>
      ensures_readField h _ name hv
  | .call target name args => (ensures_bindArguments h args).bind fun typed htyped =>
      ensures_bindCall h _ name htyped target
  | .new className args => by
    rw [bind]
    refine Ensures.trivial.bind fun owner? _ => ?_
    cases owner? with
    | none => exact .throw
    | some owner =>
      exact (ensures_bindArguments h args).bind fun typed htyped => ensures_create _ owner htyped

theorem ensures_bindArguments (h : s.Within c P) : (ts : List Template) →
    Ensures (s.bindArguments ts) fun vs => ∀ v ∈ vs, v.value.ReadsOnly P
  | [] => .pure fun v hv => absurd hv List.not_mem_nil
  | t :: rest => by
    unfold bindArguments
    split
    · next heq => cases heq
    · next rest' heq =>
      obtain ⟨rfl, rfl⟩ := List.cons.inj heq
      refine (ensures_bindArguments h rest).bind fun vs hvs => .pure fun v hv => ?_
      rcases List.mem_append.mp hv with hv | hv
      · obtain ⟨_, _, rfl⟩ := List.mem_map.mp hv
        exact fun f hf => absurd hf List.not_mem_nil
      · exact hvs v hv
    · next t' rest' _ heq =>
      obtain ⟨rfl, rfl⟩ := List.cons.inj heq
      exact (ensures_bind h t).bind fun v hv => (ensures_bindArguments h rest).bind fun vs hvs =>
        .pure (List.forall_mem_cons.mpr ⟨hv, hvs⟩)

theorem ensures_bindCall (h : s.Within c P) (shown : Template) (name : String) {args : List Typed}
    (hargs : ∀ v ∈ args, v.value.ReadsOnly P) : (target : Option Template) →
    Ensures (s.bindCall shown name args target) fun v => v.value.ReadsOnly P
  | none => ensures_callThis shown name hargs
  | some t => by
    unfold bindCall
    split
    · next heq => cases heq
    · next parts heq =>
      exact ensures_callPath h shown _ parts name hargs
    · next t' _ heq =>
      obtain rfl := Option.some.inj heq
      exact (ensures_bind h t).bind fun v hv => ensures_callOn shown hv name hargs

end

end Scope

end ClassSynth
