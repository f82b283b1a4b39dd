import ClassSynth.Proofs.ClassUnit.Fields
import ClassSynth.Proofs.Generation.Building
import ClassSynth.Proofs.Generation.Queue
import ClassSynth.Proofs.Output.Results
import ClassSynth.Proofs.Synthesis.Returns
import Mathlib.Logic.Function.Basic
import Mathlib.Logic.Relation

/-!
# What a run does to the classes

A run is a sequence of operations on single classes, and of new classes (`View.Evolves`). Each
action says which operations it does to which class (`Action.Does`), so what all operations of a
queue keep, the whole work on a class keeps.
-/

namespace ClassSynth

/-! ## Classes by name -/

/-- The answer for each name. -/
abbrev View := TypeName → Except Error (Option ClassUnit)

namespace View

/-- One of the given operations on a class, or a new class where there was none. -/
inductive Step (ops : TypeName → ClassOp → Prop) (v : View) : View → Prop
  | edit {t : TypeName} {op : ClassOp} {c c' : ClassUnit} (hop : ops t op)
      (hclass : v t = .ok (some c)) (hrun : c.runEdit op.step = (.ok (), c')) :
      Step ops v (Function.update v t (.ok (some c')))
  | new {t : TypeName} (major : UInt16) (hnone : v t = .ok none) :
      Step ops v (Function.update v t (.ok (some (.newClass t major))))

/-- Operations and new classes lead to the later answers. -/
abbrev Evolves (ops : TypeName → ClassOp → Prop) : View → View → Prop :=
  Relation.ReflTransGen (Step ops)

/-- The class of the name can be written, as far as its constants are concerned. -/
def IndexableAt (v : View) (t : TypeName) : Prop :=
  ∀ c, v t = .ok (some c) → c.file.pool.Indexable

variable {ops ops' : TypeName → ClassOp → Prop} {v v' : View} {t : TypeName}

theorem Step.mono (h : ∀ t op, ops t op → ops' t op) (hstep : Step ops v v') : Step ops' v v' := by
  cases hstep with
  | edit hop hclass hrun => exact .edit (h _ _ hop) hclass hrun
  | new major hnone => exact .new major hnone

/-- A class that is there stays there, and what one operation keeps of it is kept. -/
theorem Step.keep_some {Q : ClassUnit → ClassUnit → Prop} (hstep : Step ops v v')
    (hQ : ∀ c, Q c c)
    (hop : ∀ op c c', ops t op → c.runEdit op.step = (.ok (), c') → Q c c') {c : ClassUnit}
    (hc : v t = .ok (some c)) : ∃ c', v' t = .ok (some c') ∧ Q c c' := by
  cases hstep with
  | @edit u op c₁ c₂ hops hclass hrun =>
    by_cases ht : t = u
    · subst ht
      obtain rfl := Option.some.inj (Except.ok.inj (hc.symm.trans hclass))
      exact ⟨c₂, Function.update_self _ _ _, hop op c c₂ hops hrun⟩
    · exact ⟨c, by rw [Function.update_of_ne ht, hc], hQ c⟩
  | @new u major hnone =>
    have ht : t ≠ u := by
      rintro rfl
      rw [hc] at hnone
      cases hnone
    exact ⟨c, by rw [Function.update_of_ne ht, hc], hQ c⟩

namespace Evolves

theorem mono (h : ∀ t op, ops t op → ops' t op) (hto : Evolves ops v v') : Evolves ops' v v' :=
  Relation.ReflTransGen.mono (fun _ _ => Step.mono h) _ _ hto

/-- A class stays there, and keeps its constants. -/
theorem exists_grows (h : Evolves ops v v') {c : ClassUnit} (hc : v t = .ok (some c)) :
    ∃ c', v' t = .ok (some c') ∧ c.file.pool.Grows c'.file.pool := by
  induction h with
  | refl => exact ⟨c, hc, ConstantPool.Grows.refl _⟩
  | tail _ hstep ih =>
    obtain ⟨c₁, hc₁, hgrows⟩ := ih
    obtain ⟨c', hc', hstep⟩ := hstep.keep_some
      (Q := fun c c' => c.file.pool.Grows c'.file.pool) (fun c => .refl _)
      (fun op c c' _ hrun => (ClassUnit.KeepsMembers.of_step hrun).pool) hc₁
    exact ⟨c', hc', hgrows.trans hstep⟩

theorem indexableAt (h : Evolves ops v v') (hv' : v'.IndexableAt t) : v.IndexableAt t := by
  intro c hc
  obtain ⟨c', hc', hgrows⟩ := h.exists_grows hc
  exact hgrows.indexable (hv' c' hc')

/-- What operations keep, and new classes have, is kept. -/
theorem keep {Q : ClassUnit → Prop} (h : Evolves ops v v') (hv' : v'.IndexableAt t)
    (hop : ∀ op c c', ops t op → c.runEdit op.step = (.ok (), c') → c'.file.pool.Indexable →
      Q c → Q c')
    (hnew : ∀ major, Q (.newClass t major)) (hv : ∀ c, v t = .ok (some c) → Q c) :
    ∀ c, v' t = .ok (some c) → Q c := by
  induction h with
  | refl => exact hv
  | @tail v₁ v₂ hto hstep ih =>
    have hlast : Evolves ops v₁ v₂ := .single hstep
    have hQ := ih (hlast.indexableAt hv')
    intro c hc
    cases hstep with
    | @edit u op c₁ c₂ hops hclass hrun =>
      by_cases ht : t = u
      · subst ht
        rw [Function.update_self] at hc
        obtain rfl := Option.some.inj (Except.ok.inj hc)
        exact hop op c₁ c₂ hops hrun (hv' c₂ (Function.update_self _ _ _)) (hQ c₁ hclass)
      · rw [Function.update_of_ne ht] at hc
        exact hQ c hc
    | @new u major hnone =>
      by_cases ht : t = u
      · subst ht
        rw [Function.update_self] at hc
        obtain rfl := Option.some.inj (Except.ok.inj hc)
        exact hnew major
      · rw [Function.update_of_ne ht] at hc
        exact hQ c hc

/-- What operations keep is kept of a class that is there. -/
theorem keep_some {Q : ClassUnit → Prop} (h : Evolves ops v v') (hv' : v'.IndexableAt t)
    (hop : ∀ op c c', ops t op → c.runEdit op.step = (.ok (), c') → c'.file.pool.Indexable →
      Q c → Q c') (hv : ∃ c, v t = .ok (some c) ∧ Q c) : ∃ c, v' t = .ok (some c) ∧ Q c := by
  induction h with
  | refl => exact hv
  | @tail v₁ v₂ hto hstep ih =>
    have hlast : Evolves ops v₁ v₂ := .single hstep
    obtain ⟨c, hc, hQ⟩ := ih (hlast.indexableAt hv')
    obtain ⟨c', hc', hkeep⟩ := hstep.keep_some
      (Q := fun c c' => c'.file.pool.Indexable → Q c → Q c') (fun c _ => id)
      (fun op c c' hops hrun hindexable => hop op c c' hops hrun hindexable) hc
    exact ⟨c', hc', hkeep (hv' c' hc') hQ⟩

end Evolves

end View

/-! ## Pools -/

namespace ClassPool

variable {p p' : ClassPool} {t : TypeName} {name : String} {unit : ClassUnit}

/-- The answers of the pool. -/
def view (p : ClassPool) : View := fun t => p.lookup t.text

/-- The pool answers with classes of the name that it is asked for, and they can be written. -/
structure Fit (p : ClassPool) : Prop where
  names : p.NamesUnits
  indexable : ∀ t, p.view.IndexableAt t

theorem Loads.view_eq (h : p.Loads p') : p'.view = p.view := funext fun t => h.lookup t.text

theorem Loads.fit (h : p.Loads p') (hp : p.Fit) : p'.Fit :=
  ⟨h.namesUnits hp.names, h.view_eq ▸ hp.indexable⟩

/-- A class that the layers have can be written. -/
theorem indexable_of_search {layers : List Layer} (h : search name layers = .ok (some unit)) :
    unit.file.pool.Indexable := by
  induction layers with
  | nil => cases h
  | cons l rest ih =>
    obtain ⟨found, hfound, hrest⟩ := Checked.bind_eq_ok.mp h
    cases found with
    | none => exact ih hrest
    | some answer =>
      obtain rfl := Option.some.inj (Except.ok.inj hrest)
      obtain ⟨bytes, -, hlayer⟩ := Checked.bind_eq_ok.mp hfound
      cases bytes with
      | none => cases hlayer
      | some bytes =>
        obtain ⟨unit, hunit, hanswer⟩ := Checked.bind_eq_ok.mp hlayer
        obtain rfl := Option.some.inj (Except.ok.inj hanswer)
        obtain ⟨raw, hraw, hnamed⟩ := Checked.bind_eq_ok.mp hunit
        obtain ⟨file, hfile, hunitOf⟩ := Checked.bind_eq_ok.mp hraw
        obtain ⟨_, -, hraw⟩ := Checked.bind_eq_ok.mp hunitOf
        obtain rfl := Except.ok.inj hraw
        split_ifs at hnamed
        obtain rfl := Except.ok.inj hnamed
        exact ClassFile.indexable_of_parse (Checked.mapError_eq_ok.mp hfile)

theorem fit_of_empty (h : p.cache = ∅) : p.Fit := by
  refine ⟨namesUnits_of_empty h, fun t unit hunit => ?_⟩
  rw [view, lookup, cached?_of_empty h] at hunit
  exact indexable_of_search hunit

theorem view_withUnit (p : ClassPool) (unit : ClassUnit) :
    (p.withUnit unit).view = Function.update p.view unit.name (.ok (some unit)) := by
  funext t
  by_cases ht : t = unit.name
  · subst ht
    rw [Function.update_self]
    exact lookup_withUnit_self
  · have hname : t.text ≠ unit.name.text := fun h => ht (congrArg TypeName.mk h)
    rw [Function.update_of_ne ht]
    exact lookup_withUnit_of_ne hname

theorem view_forget_of_ne (h : t ≠ ⟨name⟩) : (p.forget name).view t = p.view t := by
  have hname : t.text ≠ name := fun hsame => h (congrArg TypeName.mk hsame)
  rw [view, view, lookup, lookup, cached?_forget_of_ne hname]
  rfl

theorem Fit.withUnit (hp : p.Fit) (hunit : unit.file.pool.Indexable) : (p.withUnit unit).Fit := by
  refine ⟨hp.names.withUnit unit, fun t c hc => ?_⟩
  rw [view_withUnit] at hc
  by_cases ht : t = unit.name
  · subst ht
    rw [Function.update_self] at hc
    exact Option.some.inj (Except.ok.inj hc) ▸ hunit
  · rw [Function.update_of_ne ht] at hc
    exact hp.indexable t c hc

/-- After a class was taken out, the layers answer for it. -/
theorem Fit.forget (hp : p.Fit) (name : String) : (p.forget name).Fit := by
  refine ⟨hp.names.forget name, fun t c hc => ?_⟩
  by_cases ht : t = ⟨name⟩
  · subst ht
    rw [view, lookup, cached?_forget_self] at hc
    exact indexable_of_search hc
  · rw [view_forget_of_ne ht] at hc
    exact hp.indexable t c hc

/-- Four constants are few. -/
theorem indexable_newClass (t : TypeName) (major : UInt16) :
    (ClassUnit.newClass t major).file.pool.Indexable := by
  have hclass : ∀ (q : ConstantPool) (name : String),
      ((ConstantPool.addClass name).run q).2.slots.size ≤ q.slots.size + 4 := by
    intro q name
    have hname := q.size_add_le (.utf8 name)
    have href := (q.add (.utf8 name)).2.size_add_le (.classRef (q.add (.utf8 name)).1)
    have hsize : ((ConstantPool.addClass name).run q).2.slots.size =
        ((q.add (.utf8 name)).2.add (.classRef (q.add (.utf8 name)).1)).2.slots.size := rfl
    omega
  have hthis := hclass .empty t.internalName
  have hsuper := hclass ((ConstantPool.addClass t.internalName).run .empty).2
    ClassUnit.objectInternalName
  have hempty : ConstantPool.empty.slots.size = 0 := rfl
  have hpool : (ClassUnit.newClass t major).file.pool =
      ((ConstantPool.addClass ClassUnit.objectInternalName).run
        ((ConstantPool.addClass t.internalName).run .empty).2).2 := rfl
  rw [hpool, ConstantPool.Indexable]
  omega

/-- The class of the name is there afterwards: the one that was there, or a new one. -/
theorem view_of_run_getOrCreate (hp : p.Fit) (h : (getOrCreate t).run.run p = (.ok unit, p')) :
    p'.Fit ∧ unit.name = t ∧ p'.cached? t.text = some unit ∧
      p'.view = Function.update p.view t (.ok (some unit)) ∧
      (p.view t = .ok (some unit) ∨ p.view t = .ok none ∧ ∃ major, unit = .newClass t major) := by
  obtain ⟨found, p₁, hfind, hrest⟩ := of_run_bind_ok h
  obtain ⟨hloads, hlookup, hcached⟩ := of_run_find hfind
  have hview : p.view t = .ok found := hlookup
  cases found with
  | some kept =>
    obtain ⟨hkept, rfl⟩ := Prod.mk.inj hrest
    obtain rfl := Except.ok.inj hkept
    refine ⟨hloads.fit hp, hp.names _ _ hlookup, hcached, ?_, .inl hview⟩
    rw [hloads.view_eq, ← hview, Function.update_eq_self]
  | none =>
    obtain ⟨start, _, hget, hput⟩ := of_run_bind_ok hrest
    obtain ⟨rfl, rfl⟩ := of_run_get_ok hget
    obtain ⟨_, p₂, hput, hreturn⟩ := of_run_bind_ok hput
    obtain rfl := of_run_modify_ok hput
    obtain ⟨hunit, rfl⟩ := Prod.mk.inj hreturn
    obtain rfl := Except.ok.inj hunit
    refine ⟨(hloads.fit hp).withUnit (indexable_newClass _ _), rfl, cached?_keep_self, ?_,
      .inr ⟨hview, _, rfl⟩⟩
    rw [← hloads.view_eq]
    exact view_withUnit p₁ (.newClass t p₁.major)

end ClassPool

/-! ## Sessions -/

namespace Session

variable {s s' : Session} {t : TypeName} {ops : TypeName → ClassOp → Prop} {c : ClassUnit}

/-- The answers of the session: the class under construction, and the answers of the pool for
others. -/
def view (s : Session) : View :=
  match s.currentClass? with
  | some c => Function.update s.pool.view c.name (.ok (some c))
  | none => s.pool.view

theorem view_of_current (h : s.currentClass? = some c) :
    s.view = Function.update s.pool.view c.name (.ok (some c)) := by
  rw [view, h]

/-- No class is under construction. -/
structure Idle (s : Session) : Prop where
  pool : s.pool.Fit
  current : s.currentClass? = none

theorem Idle.view_eq (h : s.Idle) : s.view = s.pool.view := by
  rw [view, h.current]

/-- The class of the name is under construction. -/
structure WorksOn (t : TypeName) (s : Session) : Prop where
  pool : s.pool.Fit
  current : s.currentClass?.map ClassUnit.name = some t

theorem WorksOn.exists_current (h : s.WorksOn t) :
    ∃ c, s.currentClass? = some c ∧ c.name = t ∧
      s.view = Function.update s.pool.view t (.ok (some c)) := by
  obtain ⟨c, hc, rfl⟩ := Option.map_eq_some_iff.mp h.current
  exact ⟨c, hc, rfl, view_of_current hc⟩

/-- An edit of the class under construction. -/
theorem WorksOn.edit (h : s.WorksOn t) {c' : ClassUnit} (hname : c'.name = t) :
    ({ s with currentClass? := some c' } : Session).WorksOn t ∧
      ({ s with currentClass? := some c' } : Session).view =
        Function.update s.view t (.ok (some c')) := by
  obtain ⟨c, hc, rfl, hview⟩ := h.exists_current
  refine ⟨⟨h.pool, congrArg some hname⟩, ?_⟩
  rw [view_of_current rfl, hname, hview, Function.update_idem]

/-- What the pool answers for another class, the session answers. -/
theorem WorksOn.update (h : s.WorksOn t) {u : TypeName} {found : Except Error (Option ClassUnit)}
    (hne : u ≠ t) (hcurrent : s'.currentClass? = s.currentClass?) (hfit : s'.pool.Fit)
    (hpool : s'.pool.view = Function.update s.pool.view u found) :
    s'.WorksOn t ∧ s'.view = Function.update s.view u found := by
  obtain ⟨c, hc, rfl, hview⟩ := h.exists_current
  refine ⟨⟨hfit, hcurrent ▸ h.current⟩, ?_⟩
  rw [view_of_current (hcurrent.trans hc), hpool, hview, Function.update_comm hne]

/-- A success of the step comes from some of the operations. -/
def Evolving (t : TypeName) (ops : TypeName → ClassOp → Prop) (step : Step Unit) : Prop :=
  ∀ s u s', s.WorksOn t → step.run.run s = (.ok u, s') →
    s'.WorksOn t ∧ View.Evolves ops s.view s'.view

/-- A step that does at most one operation, on the class under construction. -/
theorem evolving_of_makes {step : Step Unit} (hbuilds : Keeps Builds step)
    (hmakes : ∀ c, c.name = t → Makes c step fun _ c' =>
      c' = c ∨ ∃ op, ops t op ∧ c.runEdit op.step = (.ok (), c')) : Evolving t ops step := by
  intro s u s' hs hrun
  obtain ⟨c, hc, hname, hview⟩ := hs.exists_current
  obtain ⟨c', hc', hchange⟩ := hmakes c hname s u s' hc hrun
  have hto := hbuilds.of_run hrun
  have hs' : s'.WorksOn t := ⟨hto.pool.fit hs.pool, hto.name.trans hs.current⟩
  have hname' : c'.name = t := by
    have hcurrent := hs'.current
    rw [hc'] at hcurrent
    exact Option.some.inj hcurrent
  have hview' : s'.view = Function.update s.view t (.ok (some c')) := by
    rw [view_of_current hc', hname', hview, Function.update_idem, hto.pool.view_eq]
  refine ⟨hs', ?_⟩
  rw [hview']
  obtain rfl | ⟨op, hop, hedit⟩ := hchange
  · rw [hview, Function.update_idem]
  · exact .single (.edit hop (by rw [hview, Function.update_self]) hedit)

end Session

/-! ## Actions -/

/-- The factory that comes with a constructor of the parameters. -/
abbrev FactoryBinding.planFor (f : FactoryBinding) (params : List TypeName) : FactoryPlan :=
  { directive := f.directive, sourceType := f.sourceType, params }

namespace Action

open Session

/-- The method that an action adds to the class under construction. -/
def added? : Action → Option (String × List TypeName × TypeName)
  | accessor m => some (m.accessor.name, m.accessor.paramTypes, m.accessor.returnType)
  | mutator _ m | invoke m _ => some (m.name, m.paramTypes, m.returnType)
  | constructor plan _ => some (constructorName, plan.signature.params, .void)
  | equals .. => some ("equals", [.object], .boolean)
  | hashCode .. => some ("hashCode", [], .int)
  | display .. => some ("toString", [], .string)
  | field .. | factory _ | nonNull _ => none

/-- The factory that an action binds. -/
def factory? : Action → Option FactoryPlan
  | constructor plan (some f) => some (f.planFor plan.signature.params)
  | factory p => some p
  | _ => none

/-- The operations of an action on the class of a name, while the implementation is under
construction. -/
inductive Does (implementation : TypeName) : Action → TypeName → ClassOp → Prop
  | field (name : String) (t : TypeName) :
      Does implementation (.field name t) implementation (.addField AccessFlags.isPrivate name t)
  | method {x : Action} {name : String} {params : List TypeName} {ret : TypeName}
      (h : x.added? = some (name, params, ret)) (body : List Stmt) :
      Does implementation x implementation (.addMethod AccessFlags.isPublic name params ret body)
  | guards (m : MethodDeclaration) {gs : List Stmt} (h : ∀ s ∈ gs, Synthesis.IsGuard s) :
      Does implementation (.nonNull m) implementation (.insertBefore m.name m.descriptor gs)
  | addFactory {x : Action} {p : FactoryPlan} (h : x.factory? = some p) :
      Does implementation x (.ofText p.directive.location)
        (.addMethod (AccessFlags.isPublic ||| AccessFlags.isStatic) p.directive.method p.params
          p.sourceType (makeInstance implementation p.params))
  | replaceReturns {x : Action} {p : FactoryPlan} (h : x.factory? = some p) :
      Does implementation x (.ofText p.directive.location)
        (.replaceReturns p.directive.method (methodDescriptor p.params p.sourceType)
          (makeInstance implementation p.params))

variable {c : ClassUnit} {x : Action}

/-- At most one operation of the action is done to the class under construction. -/
def DoesOnce (c : ClassUnit) (x : Action) (step : Step Unit) : Prop :=
  Makes c step fun _ c' =>
    c' = c ∨ ∃ op, x.Does c.name c.name op ∧ c.runEdit op.step = (.ok (), c')

namespace DoesOnce

variable {α : Type}

theorem nothing : DoesOnce c x (Pure.pure ()) := .pure (.inl rfl)

/-- Classes are looked up before. -/
theorem after {step : Step α} {f : α → Step Unit} (hstep : Keeps Loads step)
    (hf : ∀ a, DoesOnce c x (f a)) : DoesOnce c x (step >>= f) :=
  Makes.after (makes_of_loads hstep) fun a _ => hf a

theorem ite {p : Prop} [Decidable p] {step step' : Step Unit} (hstep : DoesOnce c x step)
    (hstep' : DoesOnce c x step') : DoesOnce c x (if p then step else step') :=
  Makes.ite (fun _ => hstep) fun _ => hstep'

theorem edit {op : ClassOp} {step : ClassUnit.Edit Unit} (hop : x.Does c.name c.name op)
    (hstep : op.step = step) : DoesOnce c x (editClass step) :=
  (makes_editClass _).mono fun _ _ hrun => .inr ⟨op, hop, hstep ▸ hrun⟩

theorem addMethod {m : MethodDeclaration}
    (h : x.added? = some (m.name, m.paramTypes, m.returnType)) (body : List Stmt) :
    DoesOnce c x (Action.addMethod m body) :=
  edit (.method h body) rfl

end DoesOnce

theorem once_addAccessor (m : Member) : DoesOnce c (.accessor m) (addAccessor m) := by
  refine .after (loads_isDeclared _) fun _ => .ite ?_ .nothing
  refine .after loads_currentClass fun owner => ?_
  dsimp only
  split
  · exact .after (loads_wrapField _ _ _) fun _ => .addMethod rfl _
  · exact .addMethod rfl _

theorem once_addMutator (field : String) (m : MethodDeclaration) :
    DoesOnce c (.mutator field m) (addMutator field m) := by
  refine .after (loads_isDeclared _) fun _ => .ite ?_ .nothing
  split
  · exact Makes.throw
  · refine .after loads_currentClass fun _ => .after (loads_fieldType _ _) fun _ =>
      .after (loads_adapt _ _) fun _ => .ite (.addMethod rfl _) ?_
    exact .after (loads_returnReceiver _ _) fun _ => .addMethod rfl _

theorem once_addInvocations (m : MethodDeclaration) (d : InvokeDirective) :
    DoesOnce c (.invoke m d) (addInvocations m d) :=
  .after (loads_isDeclared _) fun _ => .ite
    (.after (loads_invocations _ _ _) fun _ =>
      .after (loads_afterInvocations _ _) fun _ => .addMethod rfl _) .nothing

theorem once_addObjectMethod {name : String} {params : List TypeName} {ret : TypeName}
    (h : x.added? = some (name, params, ret)) (body : TypeName → TypeName → List Stmt) :
    DoesOnce c x (addObjectMethod name params ret body) :=
  .after loads_currentClass fun _ => .ite
    (.after Keeps.lift fun _ => .edit (.method h _) rfl) .nothing

theorem once_addGuards (m : MethodDeclaration) : DoesOnce c (.nonNull m) (addGuards m) :=
  Makes.after (makes_onPool (Synthesis.isGuard_of_guards m)) fun _ hguards =>
    DoesOnce.ite (.edit (.guards m hguards) rfl) .nothing

/-! ### Factories -/

variable {s s' : Session} {t : TypeName} {u : Unit}

/-- A factory is bound in a class of the pool. -/
theorem of_run_bindKept {p : FactoryPlan} {unit : ClassUnit} (hs : s.WorksOn t)
    (hcached : s.pool.cached? unit.name.text = some unit) (hne : unit.name ≠ t)
    (h : (do
      let changed ← onPool <| ClassPool.edit unit.name.text (bindFactory p unit.name t)
      if changed then publish (← onPool (ClassPool.getUnit unit.name.text)) : Step Unit).run.run s =
        (.ok u, s')) :
    ∃ changed edited, unit.runEdit (bindFactory p unit.name t) = (.ok changed, edited) ∧
      s'.WorksOn t ∧ s'.view = Function.update s.view unit.name (.ok (some edited)) := by
  obtain ⟨changed, s₁, hedit, hrest⟩ := of_run_bind_ok h
  rcases hbind : unit.runEdit (bindFactory p unit.name t) with ⟨result, edited⟩
  have hname : edited.name = unit.name := (keepsName_bindFactory _ _ _).of_run hbind
  rw [run_onPool, ClassPool.run, ClassPool.run_edit hcached hbind hname] at hedit
  obtain ⟨hresult, rfl⟩ := Prod.mk.inj hedit
  obtain rfl : result = .ok changed := hresult
  suffices hend : edited.file.pool.Indexable ∧ s'.currentClass? = s.currentClass? ∧
      s'.pool = s.pool.withUnit edited by
    obtain ⟨hindexable, hcurrent, hpool⟩ := hend
    refine ⟨changed, edited, rfl, hs.update hne hcurrent ?_ ?_⟩
    · exact hpool ▸ hs.pool.withUnit hindexable
    · rw [hpool, ClassPool.view_withUnit, hname]
  obtain ⟨rfl, rfl⟩ | ⟨rfl, -⟩ := of_bindFactory hbind
  · obtain ⟨-, rfl⟩ := Prod.mk.inj hrest
    exact ⟨hs.pool.indexable _ _ (ClassPool.lookup_of_cached hcached), rfl, rfl⟩
  · obtain ⟨found, s₂, hget, hpublish⟩ := of_run_bind_ok hrest
    rw [← hname, run_onPool, ClassPool.run,
      ClassPool.run_getUnit_of_cached ClassPool.cached_withUnit_self] at hget
    obtain ⟨hfound, rfl⟩ := Prod.mk.inj hget
    obtain rfl : edited = found := Except.ok.inj hfound
    obtain ⟨r, s₃, hresult, hput⟩ := of_run_bind_ok hpublish
    obtain ⟨hr, rfl⟩ := of_run_lift_ok hresult
    obtain rfl := of_run_modify_ok hput
    exact ⟨ClassUnit.indexable_of_toBytes (ClassResult.splitName_of_ofClass hr).2, rfl, rfl⟩

/-- A factory is bound in the class of its location, which is made if it was not there. -/
theorem of_run_addFactory {p : FactoryPlan} (hs : s.WorksOn t)
    (h : (addFactory p).run.run s = (.ok u, s')) :
    ∃ unit changed edited, (s.view (.ofText p.directive.location) = .ok (some unit) ∨
        s.view (.ofText p.directive.location) = .ok none ∧
          ∃ major, unit = .newClass (.ofText p.directive.location) major) ∧
      unit.runEdit (bindFactory p (.ofText p.directive.location) t) = (.ok changed, edited) ∧
      s'.WorksOn t ∧
      s'.view = Function.update s.view (.ofText p.directive.location) (.ok (some edited)) := by
  obtain ⟨-, hrest⟩ := of_run_guard_ok (fun _ _ _ => not_run_throw_ok) h
  obtain ⟨c, s₀, hcurrent, hbind⟩ := of_run_bind_ok hrest
  obtain ⟨hclass, rfl⟩ := of_run_currentClass hcurrent
  obtain ⟨_, hclass', hname, hview⟩ := hs.exists_current
  obtain rfl := Option.some.inj (hclass.symm.trans hclass')
  obtain rfl := hname
  dsimp only at hbind
  split_ifs at hbind with hsame
  · rw [beq_iff_eq] at hsame
    rw [discard_eq] at hbind
    obtain ⟨changed, s₁, hedit, hend⟩ := of_run_bind_ok hbind
    obtain ⟨-, rfl⟩ := Prod.mk.inj hend
    rw [run_editClass hclass] at hedit
    obtain ⟨hchanged, rfl⟩ := Prod.mk.inj hedit
    have hrun : c.runEdit (bindFactory p (.ofText p.directive.location) c.name) =
      (.ok changed, (c.runEdit (bindFactory p (.ofText p.directive.location) c.name)).2) :=
        Prod.ext hchanged rfl
    have hkept := hs.edit (keepsName_bindFactory p (.ofText p.directive.location) c.name c)
    refine ⟨c, changed, _, .inl ?_, hrun, ?_⟩
    · rw [hsame, hview, Function.update_self]
    · rw [hsame] at hkept ⊢
      exact hkept
  · rw [beq_iff_eq] at hsame
    rw [discard_eq, bind_assoc] at hbind
    obtain ⟨unit, s₁, hget, hrest⟩ := of_run_bind_ok hbind
    rw [run_onPool] at hget
    rcases hmake : s₀.pool.run (ClassPool.getOrCreate (.ofText p.directive.location))
      with ⟨result, pool⟩
    rw [hmake] at hget
    obtain ⟨rfl, rfl⟩ := Prod.mk.inj hget
    obtain ⟨hfit, hname, hcached, hpool, hfound⟩ :=
      ClassPool.view_of_run_getOrCreate hs.pool hmake
    obtain ⟨hs₁, hview₁⟩ : ({ s₀ with pool } : Session).WorksOn c.name ∧ _ :=
      hs.update hsame rfl hfit hpool
    rw [pure_bind, ← hname] at hrest
    have hcached' : pool.cached? unit.name.text = some unit := by rw [hname, hcached]
    obtain ⟨changed, edited, hedit, hs', hview'⟩ :=
      of_run_bindKept hs₁ hcached' (hname ▸ hsame) hrest
    rw [hname] at hedit hview'
    refine ⟨unit, changed, edited, ?_, hedit, hs', ?_⟩
    · rw [hview, Function.update_of_ne hsame]
      exact hfound
    · rw [hview', hview₁, Function.update_idem]

/-- A factory comes from operations on the class of its location. -/
theorem evolving_addFactory {p : FactoryPlan} (hp : x.factory? = some p) :
    Evolving t (x.Does t) (addFactory p) := by
  intro s u s' hs hrun
  obtain ⟨unit, changed, edited, hunit, hbind, hs', hview'⟩ := of_run_addFactory hs hrun
  refine ⟨hs', ?_⟩
  -- The class is there, or is made first.
  have hmade : View.Evolves (x.Does t) s.view
      (Function.update s.view (.ofText p.directive.location) (.ok (some unit))) := by
    obtain hthere | ⟨hnone, major, rfl⟩ := hunit
    · rw [← hthere, Function.update_eq_self]
    · exact .single (.new major hnone)
  rw [hview']
  obtain ⟨-, rfl⟩ | ⟨-, op, hop, hkind⟩ := of_bindFactory hbind
  · exact hmade
  · have hdoes : x.Does t (.ofText p.directive.location) op := by
      obtain rfl | rfl := hkind
      · exact .addFactory hp
      · exact .replaceReturns hp
    have hlast := View.Step.edit hdoes
      (Function.update_self (.ofText p.directive.location) _ s.view) hop
    rw [Function.update_idem] at hlast
    exact hmade.tail hlast

/-! ### Constructors -/

/-- A constructor that is there is left alone, and no factory is bound for it. Another one is added
before its factory is bound. -/
theorem of_addConstructor {plan : ConstructorPlan} {factory : Option FactoryBinding}
    (h : (addConstructor plan factory).run.run s = (.ok u, s')) :
    ∃ c, s.currentClass? = some c ∧
      (c.hasConstructor plan.signature.params = true ∧ s' = s ∨
        c.hasConstructor plan.signature.params = false ∧
        ∃ superclass? c₁, c.superclass? = .ok superclass? ∧
          c.runEdit (ClassUnit.addMethod AccessFlags.isPublic constructorName
            plan.signature.params .void (plan.body c.name (superclass?.getD .object))) =
              (.ok (), c₁) ∧
          (factory = none ∧ s' = { s with currentClass? := some c₁ } ∨
            ∃ f u, factory = some f ∧ (addFactory (f.planFor plan.signature.params)).run.run
              { s with currentClass? := some c₁ } = (.ok u, s'))) := by
  obtain ⟨c, _, hcurrent, hrest⟩ := of_run_bind_ok h
  obtain ⟨hclass, rfl⟩ := of_run_currentClass hcurrent
  refine ⟨c, hclass, ?_⟩
  dsimp only at hrest
  split_ifs at hrest with hthere
  · obtain ⟨superclass, _, hlift, hadd⟩ := of_run_bind_ok hrest
    obtain ⟨hsuper, rfl⟩ := of_run_lift_ok hlift
    obtain ⟨_, s₁, hedit, hfactory⟩ := of_run_bind_ok hadd
    rw [run_editClass hclass] at hedit
    obtain ⟨hok, rfl⟩ := Prod.mk.inj hedit
    refine .inr ⟨by simpa using hthere, superclass, _, hsuper, Prod.ext hok rfl, ?_⟩
    cases factory with
    | none =>
      obtain ⟨-, rfl⟩ := Prod.mk.inj hfactory
      exact .inl ⟨rfl, rfl⟩
    | some f => exact .inr ⟨f, _, rfl, hfactory⟩
  · obtain ⟨-, rfl⟩ := Prod.mk.inj hrest
    exact .inl ⟨by simpa using hthere, rfl⟩

/-- A class without the constructor gets it. -/
theorem run_addConstructor {plan : ConstructorPlan} {factory : Option FactoryBinding}
    {c c₁ : ClassUnit} {superclass? : Option TypeName} (hclass : s.currentClass? = some c)
    (hnew : c.hasConstructor plan.signature.params = false)
    (hsuper : c.superclass? = .ok superclass?)
    (hedit : c.runEdit (ClassUnit.addMethod AccessFlags.isPublic constructorName
      plan.signature.params .void (plan.body c.name (superclass?.getD .object))) = (.ok (), c₁)) :
    (addConstructor plan factory).run.run s =
      (factory.elim (pure ()) fun f => addFactory (f.planFor plan.signature.params)).run.run
        { s with currentClass? := some c₁ } := by
  have hadd : (editClass (ClassUnit.addMethod AccessFlags.isPublic constructorName
      plan.signature.params .void (plan.body c.name (superclass?.getD .object)))).run.run s =
        (.ok (), { s with currentClass? := some c₁ }) := by
    rw [run_editClass hclass, hedit]
  unfold addConstructor
  refine (run_bind_of_ok (run_currentClass hclass)).trans ?_
  simp only [hnew, hsuper, Bool.not_false, if_true]
  refine (run_bind_of_ok (run_lift _)).trans ((run_bind_of_ok hadd).trans ?_)
  cases factory <;> rfl

theorem of_run_addConstructor {plan : ConstructorPlan} {factory : Option FactoryBinding}
    (hs : s.WorksOn t) (h : (addConstructor plan factory).run.run s = (.ok u, s')) :
    ∃ c, s.view t = .ok (some c) ∧
      (c.hasConstructor plan.signature.params = true ∧ s' = s ∨
        ∃ body c₁ s₁, c.runEdit (ClassUnit.addMethod AccessFlags.isPublic constructorName
            plan.signature.params .void body) = (.ok (), c₁) ∧
          s₁.WorksOn t ∧ s₁.view = Function.update s.view t (.ok (some c₁)) ∧
          (factory = none ∧ s' = s₁ ∨ ∃ f u, factory = some f ∧
            (addFactory (f.planFor plan.signature.params)).run.run s₁ = (.ok u, s'))) := by
  obtain ⟨c, hclass, hcase⟩ := of_addConstructor h
  obtain ⟨_, hclass', rfl, hview⟩ := hs.exists_current
  obtain rfl := Option.some.inj (hclass.symm.trans hclass')
  refine ⟨c, by rw [hview, Function.update_self], hcase.imp_right ?_⟩
  rintro ⟨-, superclass?, c₁, -, hedit, hfactory⟩
  have hname : c₁.name = c.name := (ClassUnit.keepsName_of_fields
    (ClassUnit.keepsFields_addMethod AccessFlags.isPublic constructorName plan.signature.params
      .void _)).of_run hedit
  obtain ⟨hs₁, hview₁⟩ := hs.edit hname
  exact ⟨_, c₁, _, hedit, hs₁, hview₁, hfactory⟩

theorem evolving_addConstructor (plan : ConstructorPlan) (factory : Option FactoryBinding) :
    Evolving t ((Action.constructor plan factory).Does t) (addConstructor plan factory) := by
  intro s u s' hs hrun
  obtain ⟨c, hc, ⟨-, rfl⟩ | ⟨body, c₁, s₁, hadd, hs₁, hview, hfactory⟩⟩ :=
    of_run_addConstructor hs hrun
  · exact ⟨hs, .refl⟩
  have hfirst : View.Evolves ((Action.constructor plan factory).Does t) s.view s₁.view := by
    rw [hview]
    exact .single (.edit (.method rfl body) hc hadd)
  obtain ⟨-, rfl⟩ | ⟨f, u, rfl, hbind⟩ := hfactory
  · exact ⟨hs₁, hfirst⟩
  · obtain ⟨hs', hlast⟩ :=
      evolving_addFactory (x := .constructor plan (some f)) rfl s₁ u s' hs₁ hbind
    exact ⟨hs', hfirst.trans hlast⟩

/-! ### All actions -/

theorem evolving_apply (x : Action) : Evolving t (x.Does t) x.apply := by
  have hlocally : ∀ {step : Step Unit}, Keeps Builds step → (∀ c, DoesOnce c x step) →
      Evolving t (x.Does t) step := fun hbuilds honce =>
    evolving_of_makes hbuilds fun c hname => hname ▸ honce c
  cases x with
  | field name u =>
    refine hlocally (builds_addField name u) fun c => ?_
    exact .after loads_currentClass fun _ => .ite (.edit (.field name u) rfl) .nothing
  | accessor => exact hlocally (builds_addAccessor _) fun _ => once_addAccessor _
  | mutator => exact hlocally (builds_addMutator _ _) fun _ => once_addMutator _ _
  | invoke => exact hlocally (builds_addInvocations _ _) fun _ => once_addInvocations _ _
  | constructor plan factory => exact evolving_addConstructor plan factory
  | factory p => exact evolving_addFactory rfl
  | equals =>
    rw [apply]
    exact hlocally (builds_addObjectMethod _ _ _ _) fun _ => once_addObjectMethod rfl _
  | hashCode =>
    rw [apply]
    exact hlocally (builds_addObjectMethod _ _ _ _) fun _ => once_addObjectMethod rfl _
  | display =>
    rw [apply]
    exact hlocally (builds_addObjectMethod _ _ _ _) fun _ => once_addObjectMethod rfl _
  | nonNull => exact hlocally (builds_addGuards _) fun _ => once_addGuards _

end Action

namespace ActionQueue

open Session

variable {t : TypeName} {queue pre post : ActionQueue} {x : Action} {s s' : Session} {u : Unit}

/-- The operations of the actions of a queue. -/
def Does (implementation : TypeName) (queue : ActionQueue) (t : TypeName) (op : ClassOp) : Prop :=
  ∃ x ∈ queue, x.Does implementation t op

theorem evolving_applyAll (queue : ActionQueue) : Evolving t (queue.Does t) queue.applyAll := by
  induction queue with
  | nil =>
    intro s u s' hs hrun
    obtain ⟨-, rfl⟩ := Prod.mk.inj hrun
    exact ⟨hs, .refl⟩
  | cons x rest ih =>
    intro s u s' hs hrun
    obtain ⟨_, s₁, hfirst, hrest⟩ := of_run_bind_ok hrun
    obtain ⟨_, s₀, hlabel, happly⟩ := of_run_bind_ok hfirst
    obtain rfl := of_run_modify_ok hlabel
    have hs₀ : Session.WorksOn t { s with currentAction? := some x.label } := ⟨hs.pool, hs.current⟩
    obtain ⟨hs₁, hto₁⟩ := x.evolving_apply _ _ s₁ hs₀ happly
    obtain ⟨hs', hto'⟩ := ih s₁ u s' hs₁ hrest
    refine ⟨hs', .trans (hto₁.mono fun _ _ hop => ?_) (hto'.mono fun _ _ hop => ?_)⟩
    · exact ⟨x, List.mem_cons_self, hop⟩
    · obtain ⟨y, hy, hop⟩ := hop
      exact ⟨y, List.mem_cons_of_mem _ hy, hop⟩

/-- Where an action is carried out, the ones in front of it were carried out before. -/
theorem of_run_applyAll (h : (applyAll (pre ++ x :: post)).run.run s = (.ok u, s')) :
    ∃ s₁ s₂, pre.applyAll.run.run s = (.ok (), s₁) ∧
      x.apply.run.run { s₁ with currentAction? := some x.label } = (.ok (), s₂) ∧
      post.applyAll.run.run s₂ = (.ok u, s') := by
  induction pre generalizing s with
  | nil =>
    obtain ⟨_, s₂, hfirst, hrest⟩ := of_run_bind_ok h
    obtain ⟨_, _, hlabel, happly⟩ := of_run_bind_ok hfirst
    obtain rfl := of_run_modify_ok hlabel
    exact ⟨s, s₂, rfl, happly, hrest⟩
  | cons y pre ih =>
    obtain ⟨_, s₀, hfirst, hrest⟩ := of_run_bind_ok h
    obtain ⟨s₁, s₂, hpre, happly, hpost⟩ := ih hrest
    exact ⟨s₁, s₂, (run_bind_of_ok hfirst).trans hpre, happly, hpost⟩

end ActionQueue

end ClassSynth
