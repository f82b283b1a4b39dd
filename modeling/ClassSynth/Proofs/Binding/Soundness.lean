import ClassSynth.Proofs.Binding.Conversion
import ClassSynth.Proofs.Binding.Lookups

/-!
# Bound templates are well typed

The expression that a template stands for is well typed, and its value has the type that comes with
it (`Scope.within_bind`), in whatever pool the names of the template are looked up.
-/

namespace ClassSynth

/-- Methods that pack arguments have an array for them. And no class is named like a primitive type
or `void`: such a name stands for the type, so nothing could refer to the class. -/
structure ClassPool.Regular (p : ClassPool) : Prop where
  names : ∀ name unit, p.lookup name = .ok (some unit) → (TypeName.ofText name).isReference = true
  methods : ∀ m, p.HasMethod m → m.PacksArray

/-- A scope in a regular pool. The class under construction is like the classes of the pool, and what
takes the place of the placeholder is well typed, as the templates that are wrapped are. -/
structure Scope.Regular (p : ClassPool) (s : Scope) : Prop where
  pool : p.Regular
  thisClass : s.thisClass.isReference = true
  own : ∀ unit methods, s.current = some unit → unit.methods = .ok methods →
    ∀ m ∈ methods, m.PacksArray
  placeholder : ∀ v, s.placeholder = some v → v.IsSound p s

namespace Scope

variable {p : ClassPool} {s : Scope}

/-! ## Classes -/

theorem isReference_shortName {name : String} (h : name ∈ shortNames) :
    (TypeName.ofText ("java.lang." ++ name)).isReference = true := by
  have hall : ∀ name ∈ shortNames, (TypeName.ofText ("java.lang." ++ name)).isReference = true := by
    decide
  exact hall name h

theorem within_findSibling (h : p.Regular) (s : Scope) (name : String) :
    ClassSynth.Within p.Loads (s.findSibling name) fun found =>
      ∀ t ∈ found, t.isReference = true := by
  refine .ite (fun _ => .pure nofun) fun _ => ?_
  refine (ClassPool.within_find _).bind fun found hfound => .pure fun t ht => ?_
  obtain ⟨unit, rfl, rfl⟩ := Option.map_eq_some_iff.mp (Option.mem_def.mp ht)
  exact h.names _ unit hfound

theorem within_findClass (h : p.Regular) (s : Scope) (parts : List String) :
    ClassSynth.Within p.Loads (s.findClass parts) fun found =>
      ∀ t ∈ found, t.isReference = true := by
  refine (ClassPool.within_find _).bind fun found hfound => .ite (fun hsome => .pure ?_) fun _ => ?_
  · intro t ht
    obtain ⟨unit, rfl⟩ := Option.isSome_iff_exists.mp hsome
    obtain rfl := Option.some.inj ht
    exact h.names _ unit hfound
  · refine .ite (fun _ => .pure nofun) fun _ => .ite (fun hshort => .pure ?_) fun _ =>
      within_findSibling h s _
    intro t ht
    obtain rfl := Option.some.inj ht
    exact isReference_shortName (List.contains_iff_mem.mp hshort)

/-! ## Fields -/

theorem isReference_of_hasMembers {t : TypeName} (h : hasMembers t = true) :
    t.isReference = true := by
  unfold hasMembers at h
  simp only [Bool.and_eq_true] at h
  exact h.1.1

/-- A field of a well-typed reference. -/
theorem isSound_getField {target : Typed} (htarget : target.IsSound p s)
    (href : target.type.isReference = true) (f : FieldRef) :
    Typed.IsSound p s ⟨.getField target.value f, f.type⟩ :=
  ⟨rfl, ⟨_, htarget.type, href⟩, htarget.value⟩

theorem within_readField (shown : Template) {target : Typed} (name : String)
    (htarget : target.IsSound p s) :
    ClassSynth.Within p.Loads (s.readField shown target name) (Typed.IsSound p s) := by
  unfold readField
  refine .ite (fun _ => Within.throw.bind (P := fun _ => False) fun _ hfalse => hfalse.elim)
    fun hmembers => ?_
  have href : target.type.isReference = true :=
    isReference_of_hasMembers (by simpa using hmembers)
  refine .ite (fun _ => ?_) fun _ => ?_
  · refine (ClassPool.Loads.within (s.keeps_thisField name)).bind fun found _ => ?_
    cases found with
    | none => exact .throw
    | some f => exact .pure (isSound_getField htarget href f)
  · refine (ClassPool.Loads.within (ClassPool.keeps_findField _ _)).bind fun found _ => ?_
    cases found with
    | none => exact .throw
    | some f => exact .pure (isSound_getField htarget href _)

theorem within_readFields (shown : Template) {target : Typed} (names : List String)
    (htarget : target.IsSound p s) :
    ClassSynth.Within p.Loads (s.readFields shown target names) (Typed.IsSound p s) :=
  Within.foldlM (R := fun _ v => Typed.IsSound p s v)
    (fun _ _ name _ hv => within_readField shown name hv) [] htarget

theorem within_readStatic (owner : TypeName) (name : String) :
    ClassSynth.Within p.Loads (readStatic owner name) (Typed.IsSound p s) := by
  refine (ClassPool.Loads.within (ClassPool.keeps_findField _ _)).bind fun found _ => ?_
  cases found with
  | none => exact .throw
  | some f => exact .pure ⟨rfl, trivial⟩

theorem within_bindStaticPath (shown : Template) (parts : List String) (n : Nat) :
    ClassSynth.Within p.Loads (s.bindStaticPath shown parts n) (Typed.IsSound p s) := by
  induction n with
  | zero => exact .throw
  | succ n ih =>
    unfold bindStaticPath
    refine (ClassPool.Loads.within (s.keeps_findClass _)).bind fun found _ => ?_
    split
    · exact (within_readStatic _ _).bind fun _ hv => within_readFields shown _ hv
    · exact ih

/-- The receiver is a reference where there is one. -/
theorem isSound_this (hstatic : s.isStatic = false) :
    Typed.IsSound p s ⟨.this, s.thisClass⟩ :=
  ⟨rfl, hstatic⟩

theorem within_headField (parts : List String) :
    ClassSynth.Within p.Loads (s.headField parts) fun found =>
      found.isSome = true → s.isStatic = false := by
  cases parts with
  | nil => exact .pure nofun
  | cons name rest =>
    refine .ite (fun _ => .pure nofun) fun hstatic => ?_
    exact (ClassPool.Loads.within (s.keeps_thisField name)).mono fun _ _ _ => by simpa using hstatic

theorem within_bindPath (h : s.Regular p) (shown : Template) (parts : List String) :
    ClassSynth.Within p.Loads (s.bindPath shown parts) (Typed.IsSound p s) := by
  refine (within_headField parts).bind fun found hstatic => ?_
  cases found with
  | none => exact within_bindStaticPath shown parts _
  | some f =>
    exact within_readFields shown _ (isSound_getField (isSound_this (hstatic rfl)) h.thisClass f)

/-! ## Calls -/

/-- The arguments are well typed, and the parameters take them. -/
def Arguments (p : ClassPool) (s : Scope) (params : List TypeName) (xs : List Expr) : Prop :=
  List.Forall₂ (Expr.PassesAs p s) xs params ∧ Expr.AllWellTyped p s xs

theorem within_select (shown : Template) (owner : TypeName) (name : String)
    {candidates : List MethodSig} {args : List Typed}
    (hcandidates : ∀ m ∈ candidates, m.PacksArray) (hargs : ∀ v ∈ args, v.IsSound p s) :
    ClassSynth.Within p.Loads (select shown owner name candidates args) fun call =>
      call.1 ∈ candidates ∧ Arguments p s call.1.params call.2 := by
  refine (Binding.within_cheapest _ _).bind fun found hfits => ?_
  cases found with
  | none => exact .throw
  | some a =>
    have ha := hfits a rfl
    obtain ⟨hpasses, htyped⟩ := Binding.convertArguments_sound ha (hcandidates _ ha.mem) hargs
    exact .pure ⟨ha.mem, hpasses, Expr.allWellTyped_iff.mpr htyped⟩

theorem isSound_staticCall {m : MethodSig} {xs : List Expr} (owner : TypeName)
    (hargs : Arguments p s m.params xs) : (staticCall owner m xs).IsSound p s :=
  ⟨rfl, .inl rfl, hargs⟩

theorem within_instanceCall {receiver : Typed} (hreceiver : receiver.IsSound p s)
    (href : receiver.type.isReference = true) (owner : TypeName) {m : MethodSig} {xs : List Expr}
    (hargs : Arguments p s m.params xs) :
    ClassSynth.Within p.Loads (s.instanceCall receiver.value owner m xs) (Typed.IsSound p s) :=
  (ClassPool.Loads.within (s.keeps_ownerIsInterface owner)).bind fun _ _ =>
    .pure ⟨rfl, .inr ⟨⟨_, hreceiver.type, href⟩, hreceiver.value⟩, hargs⟩

theorem within_ownMethods (h : s.Regular p) (name : String) :
    ClassSynth.Within p.Loads (s.ownMethods name) fun methods => ∀ m ∈ methods, m.PacksArray := by
  unfold ownMethods
  split
  · next unit hunit =>
    refine (Within.lift fun _ => id).bind fun methods hmethods => .pure fun m hm => ?_
    exact h.own unit methods hunit hmethods m (List.mem_of_mem_filter hm)
  · exact .pure nofun

theorem within_collected (h : p.Regular) (roots : List TypeName) (name : String) :
    ClassSynth.Within p.Loads (ClassPool.collectMethods roots name) fun methods =>
      ∀ m ∈ methods, m.PacksArray :=
  (ClassPool.within_collectMethods roots name).mono fun _ hfound m hm => h.methods m (hfound m hm)

theorem within_callThis (h : s.Regular p) (shown : Template) (name : String) {args : List Typed}
    (hargs : ∀ v ∈ args, v.IsSound p s) :
    ClassSynth.Within p.Loads (s.callThis shown name args) (Typed.IsSound p s) := by
  refine (within_ownMethods h name).bind fun own hown => ?_
  refine (ClassPool.Loads.within s.keeps_roots).bind fun roots _ => ?_
  refine (within_collected h.pool roots name).bind fun inherited hinherited => ?_
  dsimp only
  have hall : ∀ m ∈ inherited.foldl ClassPool.addSignature own, m.PacksArray := fun m hm =>
    (ClassPool.mem_of_mem_foldl_addSignature hm).elim (hown m) (hinherited m)
  have hcandidates : ∀ m ∈ (if s.isStatic then
      (inherited.foldl ClassPool.addSignature own).filter (·.isStatic)
      else inherited.foldl ClassPool.addSignature own),
      m.PacksArray ∧ (s.isStatic = true → m.isStatic = true) := by
    intro m hm
    split_ifs at hm with hstatic
    · obtain ⟨hm, hmethod⟩ := List.mem_filter.mp hm
      exact ⟨hall m hm, fun _ => hmethod⟩
    · exact ⟨hall m hm, fun hs => absurd hs hstatic⟩
  refine (within_select shown _ name (fun m hm => (hcandidates m hm).1) hargs).bind
    fun call hcall => ?_
  refine .ite (fun _ => .pure (isSound_staticCall _ hcall.2)) fun hmethod => ?_
  have hstatic : s.isStatic = false := by
    have := (hcandidates _ hcall.1).2
    simpa using mt this hmethod
  exact within_instanceCall (isSound_this hstatic) h.thisClass _ hcall.2

theorem within_callOn (h : s.Regular p) (shown : Template) {receiver : Typed}
    (hreceiver : receiver.IsSound p s) (name : String) {args : List Typed}
    (hargs : ∀ v ∈ args, v.IsSound p s) :
    ClassSynth.Within p.Loads (s.callOn shown receiver name args) (Typed.IsSound p s) := by
  refine .ite (fun _ => Within.throw.bind (P := fun _ => False) fun _ hfalse => hfalse.elim)
    fun hmembers => ?_
  have href : receiver.type.isReference = true :=
    isReference_of_hasMembers (by simpa using hmembers)
  have hcall : ∀ candidates : List MethodSig, (∀ m ∈ candidates, m.PacksArray) →
      ClassSynth.Within p.Loads (do
        let call ← select shown receiver.type name candidates args
        if call.1.isStatic then return staticCall call.1.owner call.1 call.2
        else s.instanceCall receiver.value receiver.type call.1 call.2) (Typed.IsSound p s) := by
    intro candidates hcandidates
    refine (within_select shown _ name hcandidates hargs).bind fun call hcall => ?_
    exact .ite (fun _ => .pure (isSound_staticCall _ hcall.2)) fun _ =>
      within_instanceCall hreceiver href _ hcall.2
  refine .ite (fun _ => ?_) fun _ => (within_collected h.pool _ name).bind hcall
  refine (within_ownMethods h name).bind fun own hown => ?_
  refine (ClassPool.Loads.within s.keeps_roots).bind fun roots _ => ?_
  refine (within_collected h.pool roots name).bind fun inherited hinherited => hcall _ ?_
  exact fun m hm => (List.mem_append.mp hm).elim (hown m) (hinherited m)

theorem within_callStatic (h : p.Regular) (shown : Template) (owner : TypeName) (name : String)
    {args : List Typed} (hargs : ∀ v ∈ args, v.IsSound p s) :
    ClassSynth.Within p.Loads (callStatic shown owner name args) (Typed.IsSound p s) := by
  refine (within_collected h _ name).bind fun found hfound => ?_
  refine (within_select shown owner name (fun m hm => ?_) hargs).bind fun call hcall =>
    .pure (isSound_staticCall owner hcall.2)
  exact hfound m (List.mem_of_mem_filter hm)

theorem within_callPath (h : s.Regular p) (shown path : Template) (parts : List String)
    (name : String) {args : List Typed} (hargs : ∀ v ∈ args, v.IsSound p s) :
    ClassSynth.Within p.Loads (s.callPath shown path parts name args) (Typed.IsSound p s) := by
  refine (within_headField parts).bind fun found _ => .ite (fun _ => ?_) fun _ => ?_
  · exact (within_bindPath h path parts).bind fun _ hv => within_callOn h shown hv name hargs
  · refine (ClassPool.Loads.within (s.keeps_findClass parts)).bind fun owner _ => ?_
    cases owner with
    | some owner => exact within_callStatic h.pool shown owner name hargs
    | none =>
      exact (within_bindPath h shown parts).bind fun _ hv => within_callOn h shown hv name hargs

theorem within_create (h : p.Regular) (shown : Template) {owner : TypeName}
    (howner : owner.isReference = true) {args : List Typed} (hargs : ∀ v ∈ args, v.IsSound p s) :
    ClassSynth.Within p.Loads (create shown owner args) (Typed.IsSound p s) := by
  refine (within_collected h _ constructorName).bind fun found hfound => ?_
  refine (within_select shown owner constructorName (fun m hm => ?_) hargs).bind fun call hcall =>
    .pure ⟨rfl, howner, hcall.2⟩
  exact hfound m (List.mem_of_mem_filter hm)

/-! ## Templates -/

theorem isSound_allParams : ∀ v ∈ s.allParams, v.IsSound p s := by
  intro v hv
  obtain ⟨⟨t, i⟩, hentry, rfl⟩ := List.mem_map.mp hv
  refine ⟨?_, trivial⟩
  have hparam := List.mem_zipIdx_iff_getElem?.mp hentry
  exact hparam

mutual

/-- **A template stands for a well-typed expression, whose value has the type it comes with.** -/
theorem within_bind (h : s.Regular p) :
    (t : Template) → ClassSynth.Within p.Loads (s.bind t) (Typed.IsSound p s)
  | .placeholder => by
    rw [bind]
    split
    · next v hv => exact .pure (h.placeholder v hv)
    · exact .throw
  | .this => .ite (fun _ => .throw) fun hstatic => .pure (isSound_this (by simpa using hstatic))
  | .param index => by
    rw [bind]
    split
    · next t ht => exact .pure ⟨ht, trivial⟩
    · exact .throw
  | .allParams => .throw
  | .null => .pure ⟨rfl, trivial⟩
  | .bool value => .pure ⟨rfl, trivial⟩
  | .int value => .pure ⟨rfl, trivial⟩
  | .str value => .pure ⟨rfl, trivial⟩
  | .path parts => within_bindPath h _ parts
  | .field target name => (within_bind h target).bind fun _ hv => within_readField _ name hv
  | .call target name args => (within_bindArguments h args).bind fun _ htyped =>
      within_bindCall h _ name htyped target
  | .new className args => by
    rw [bind]
    refine (within_findClass h.pool s _).bind fun owner? howner => ?_
    cases owner? with
    | none => exact .throw
    | some owner =>
      exact (within_bindArguments h args).bind fun _ htyped =>
        within_create h.pool _ (howner owner rfl) htyped

theorem within_bindArguments (h : s.Regular p) : (ts : List Template) →
    ClassSynth.Within p.Loads (s.bindArguments ts) fun vs => ∀ v ∈ vs, v.IsSound p s
  | [] => .pure nofun
  | t :: rest => by
    unfold bindArguments
    split
    · next heq => cases heq
    · next rest' heq =>
      obtain ⟨rfl, rfl⟩ := List.cons.inj heq
      refine (within_bindArguments h rest).bind fun vs hvs => .pure fun v hv => ?_
      exact (List.mem_append.mp hv).elim (isSound_allParams v) (hvs v)
    · next t' rest' _ heq =>
      obtain ⟨rfl, rfl⟩ := List.cons.inj heq
      exact (within_bind h t).bind fun v hv => (within_bindArguments h rest).bind fun vs hvs =>
        .pure (List.forall_mem_cons.mpr ⟨hv, hvs⟩)

theorem within_bindCall (h : s.Regular p) (shown : Template) (name : String) {args : List Typed}
    (hargs : ∀ v ∈ args, v.IsSound p s) : (target : Option Template) →
    ClassSynth.Within p.Loads (s.bindCall shown name args target) (Typed.IsSound p s)
  | none => within_callThis h shown name hargs
  | some t => by
    unfold bindCall
    split
    · next heq => cases heq
    · next parts heq => exact within_callPath h shown _ parts name hargs
    · next t' _ heq =>
      obtain rfl := Option.some.inj heq
      exact (within_bind h t).bind fun _ hv => within_callOn h shown hv name hargs

end

end Scope

end ClassSynth
