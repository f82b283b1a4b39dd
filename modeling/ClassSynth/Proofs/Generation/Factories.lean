import ClassSynth.Proofs.Acceptance.Method
import ClassSynth.Proofs.ClassUnit.Factories
import ClassSynth.Proofs.Descriptor.RoundTrip
import ClassSynth.Proofs.Generation.Coherence
import ClassSynth.Proofs.Generation.Evolution

/-!
# Factories of a run

A constructor that is added binds its factory, in the class under construction or in another one.
A run works on one class after the other; what it does to a class in between leaves the bound
methods as they are, so they are there when it ends (`Environment.factories_bound`).
-/

namespace ClassSynth

/-! ## Turns -/

/-- The operation leaves the methods of the class. -/
def ClassOp.LeavesMethods (op : ClassOp) : Prop := op.added? = none ∧ op.target? = none

namespace Session

variable {t : TypeName} {queue : ActionQueue} {d : TypeDeclaration} {unit : ClassUnit}
  {s s' : Session} {u : Unit}

/-- A turn of a run: the class of the name is looked up or made, it gets a supertype, and the
actions of a queue are carried out on it. An empty queue is left alone. -/
inductive Turn (t : TypeName) : ActionQueue → Session → Session → Prop
  | idle (s : Session) : Turn t [] s s
  | work {queue : ActionQueue} {s s₀ s₁ s' : Session} (hstart : s₀.WorksOn t)
      (hview : View.Evolves (fun _ op => op.LeavesMethods) s.view s₀.view)
      (hactions : queue.applyAll.run.run s₀ = (.ok (), s₁))
      (hend : s₁.WorksOn t → s'.Idle ∧ s'.view = s₁.view) : Turn t queue s s'

/-- Work on a class is a turn, from the class that it starts with. -/
theorem turn_of_realize (hs : s.Idle) (hname : unit.name = t) {v : Session}
    (hview : View.Evolves (fun _ op => op.LeavesMethods) v.view
      (Function.update s.view t (.ok (some unit))))
    (h : (realize d unit queue).run.run s = (.ok u, s')) : Turn t queue v s' := by
  obtain rfl := hname
  obtain ⟨s₁, built, r, hactions, hclass, -, hresult, rfl⟩ := of_run_realize h
  have hstart : (s.start d unit).view = Function.update s.view unit.name (.ok (some unit)) := by
    rw [view_of_current rfl, hs.view_eq]
    rfl
  have hworks : (s.start d unit).WorksOn unit.name := ⟨hs.pool, rfl⟩
  refine .work hworks (hstart ▸ hview) hactions fun hs₁ => ?_
  obtain ⟨c, hc, hname, hview₁⟩ := hs₁.exists_current
  obtain rfl := Option.some.inj (hclass.symm.trans hc)
  have hindexable := ClassUnit.indexable_of_toBytes (ClassResult.splitName_of_ofClass hresult).2
  have hidle : (s₁.finish built r).Idle := ⟨hs₁.pool.withUnit hindexable, rfl⟩
  refine ⟨hidle, ?_⟩
  rw [hidle.view_eq, hview₁, ← hname]
  exact ClassPool.view_withUnit s₁.pool built

theorem Idle.loads (hs : s.Idle) (h : Loads s s') : s'.Idle ∧ s'.view = s.view := by
  have hs' : s'.Idle := ⟨h.1.fit hs.pool, by rw [h.2]; exact hs.current⟩
  refine ⟨hs', ?_⟩
  rw [hs'.view_eq, hs.view_eq, h.1.view_eq]

theorem of_run_targetClass (hs : s.Idle)
    (h : (Handler.targetClass t).run.run s = (.ok unit, s')) :
    s'.Idle ∧ s'.view = s.view ∧ unit.name = t ∧
      (s.view t = .ok (some unit) ∨ s.view t = .ok none ∧ ∃ major, unit = .newClass t major) := by
  obtain ⟨found, s₁, hfind, hrest⟩ := of_run_bind_ok h
  rw [run_onPool] at hfind
  rcases hrun : s.pool.run (ClassPool.find t.text) with ⟨result, pool⟩
  rw [hrun] at hfind
  obtain ⟨rfl, rfl⟩ := Prod.mk.inj hfind
  obtain ⟨hloads, hlookup, -⟩ := ClassPool.of_run_find hrun
  obtain ⟨hs₁, hview⟩ : Session.Idle { s with pool } ∧ _ := hs.loads ⟨hloads, rfl⟩
  have hfound : s.view t = .ok found := by
    rw [hs.view_eq]
    exact hlookup
  cases found with
  | some kept =>
    obtain ⟨_, _, hcompiled, hreturn⟩ := of_run_bind_ok hrest
    obtain ⟨-, rfl⟩ := of_run_lift_ok hcompiled
    obtain ⟨hkept, rfl⟩ := Prod.mk.inj hreturn
    obtain rfl := Except.ok.inj hkept
    exact ⟨hs₁, hview, hs.pool.names _ _ hlookup, .inl hfound⟩
  | none =>
    obtain ⟨current, _, hget, hreturn⟩ := of_run_bind_ok hrest
    obtain ⟨rfl, rfl⟩ := of_run_get_ok hget
    obtain ⟨hunit, rfl⟩ := Prod.mk.inj hreturn
    obtain rfl := Except.ok.inj hunit
    exact ⟨hs₁, hview, rfl, .inr ⟨hfound, _, rfl⟩⟩

/-- The class that exists, or a new one, becomes a subtype. -/
theorem evolves_attach {extended : ClassUnit} (hname : unit.name = t)
    (hfound : s.view t = .ok (some unit) ∨
      s.view t = .ok none ∧ ∃ major, unit = .newClass t major)
    (h : unit.runEdit (Handler.attach d) = (.ok (), extended)) :
    View.Evolves (fun _ op => op.LeavesMethods) s.view
      (Function.update s.view t (.ok (some extended))) := by
  obtain ⟨op, hop, hstep⟩ : ∃ op : ClassOp, op.LeavesMethods ∧ op.step = Handler.attach d := by
    unfold Handler.attach
    split_ifs
    · exact ⟨.addInterface d.name, ⟨rfl, rfl⟩, rfl⟩
    · exact ⟨.setSuperclass d.name, ⟨rfl, rfl⟩, rfl⟩
  have hmade : View.Evolves (fun _ op => op.LeavesMethods) s.view
      (Function.update s.view t (.ok (some unit))) := by
    obtain hthere | ⟨hnone, major, rfl⟩ := hfound
    · rw [← hthere, Function.update_eq_self]
    · exact .single (.new major hnone)
  have hlast : View.Step (fun _ op => op.LeavesMethods)
      (Function.update s.view t (.ok (some unit)))
      (Function.update (Function.update s.view t (.ok (some unit))) t (.ok (some extended))) :=
    .edit hop (Function.update_self t (.ok (some unit)) s.view) (hstep ▸ h)
  rw [Function.update_idem] at hlast
  exact hmade.tail hlast

theorem of_run_generate (hs : s.Idle) (h : (Handler.generate d queue).run.run s = (.ok u, s')) :
    Turn d.targetName queue s s' := by
  unfold Handler.generate at h
  split_ifs at h with hempty
  · obtain ⟨unit, s₁, htarget, hrest⟩ := of_run_bind_ok h
    obtain ⟨hs₁, hview, hname, hfound⟩ := of_run_targetClass hs htarget
    rcases hattach : unit.runEdit (Handler.attach d) with ⟨attached, extended⟩
    rw [hattach] at hrest
    obtain ⟨_, _, hlift, hrealize⟩ := of_run_bind_ok hrest
    obtain ⟨rfl, rfl⟩ := of_run_lift_ok hlift
    have hextended : extended.name = d.targetName :=
      ((Handler.keepsName_attach d).of_run hattach).trans hname
    refine turn_of_realize hs₁ hextended ?_ hrealize
    rw [← hview]
    exact evolves_attach hname (hview ▸ hfound) hattach
  · obtain ⟨-, rfl⟩ := Prod.mk.inj h
    obtain rfl : queue = [] := by simpa using hempty
    exact .idle s

theorem of_run_check (hs : s.Idle) (h : (Handler.check d queue).run.run s = (.ok u, s')) :
    Turn ⟨d.qualifiedName⟩ queue s s' := by
  unfold Handler.check at h
  split_ifs at h with hempty
  · obtain ⟨found, s₁, hget, hrest⟩ := of_run_bind_ok h
    obtain ⟨_, s₂, hcompiled, htake⟩ := of_run_bind_ok hrest
    obtain ⟨-, rfl⟩ := of_run_lift_ok hcompiled
    obtain ⟨unit, s₃, htaken, hrealize⟩ := of_run_bind_ok htake
    obtain ⟨hs₁, hview₁⟩ := hs.loads ((loads_onPool (ClassPool.keeps_getUnit _)).of_run hget)
    rw [run_onPool] at htaken
    rcases hrun : s₁.pool.run (ClassPool.take d.qualifiedName) with ⟨result, pool⟩
    rw [hrun] at htaken
    obtain ⟨rfl, rfl⟩ := Prod.mk.inj htaken
    obtain ⟨p, hloads, hlookup, rfl⟩ := ClassPool.of_run_take hrun
    have hs₃ : Session.Idle { s₁ with pool := p.forget d.qualifiedName } :=
      ⟨(hloads.fit hs₁.pool).forget _, hs₁.current⟩
    refine turn_of_realize hs₃ (hs₁.pool.names _ _ hlookup) ?_ hrealize
    -- Only the class that is checked was taken out, and it is under construction now.
    suffices hsame : Function.update (p.forget d.qualifiedName).view ⟨d.qualifiedName⟩
        (.ok (some unit)) = s.view by
      rw [hs₃.view_eq, hsame]
    funext t
    by_cases ht : t = ⟨d.qualifiedName⟩
    · subst ht
      rw [Function.update_self, ← hview₁, hs₁.view_eq]
      exact hlookup.symm
    · rw [Function.update_of_ne ht, ClassPool.view_forget_of_ne ht, hloads.view_eq, ← hview₁,
        hs₁.view_eq]
  · obtain ⟨-, rfl⟩ := Prod.mk.inj h
    obtain rfl : queue = [] := by simpa using hempty
    exact .idle s

/-! ### Operations -/

/-- The operations of turns. -/
def TurnOps (turns : List (TypeName × ActionQueue)) (t : TypeName) (op : ClassOp) : Prop :=
  op.LeavesMethods ∨ ∃ p ∈ turns, p.2.Does p.1 t op

theorem Turn.evolves (h : Turn t queue s s') (hs : s.Idle) :
    s'.Idle ∧ View.Evolves (TurnOps [(t, queue)]) s.view s'.view := by
  cases h with
  | idle => exact ⟨hs, .refl⟩
  | work hstart hview hactions hend =>
    obtain ⟨hs₁, hto⟩ := queue.evolving_applyAll _ _ _ hstart hactions
    obtain ⟨hs', hview'⟩ := hend hs₁
    refine ⟨hs', (hview.mono fun _ _ => .inl).trans ?_⟩
    rw [hview']
    exact hto.mono fun _ _ hop => .inr ⟨_, List.mem_singleton_self _, hop⟩

/-- Turns one after the other. -/
inductive Turns : List (TypeName × ActionQueue) → Session → Session → Prop
  | nil (s : Session) : Turns [] s s
  | cons {t : TypeName} {queue : ActionQueue} {turns : List (TypeName × ActionQueue)}
      {s s₁ s' : Session} (hfirst : Turn t queue s s₁) (hrest : Turns turns s₁ s') :
      Turns ((t, queue) :: turns) s s'

namespace Turns

variable {turns turns' : List (TypeName × ActionQueue)} {s₁ : Session}

theorem evolves (h : Turns turns s s') (hs : s.Idle) :
    s'.Idle ∧ View.Evolves (TurnOps turns) s.view s'.view := by
  induction h with
  | nil => exact ⟨hs, .refl⟩
  | cons hfirst _ ih =>
    obtain ⟨hs₁, hto⟩ := hfirst.evolves hs
    obtain ⟨hs', hto'⟩ := ih hs₁
    refine ⟨hs', (hto.mono fun _ _ => ?_).trans (hto'.mono fun _ _ => ?_)⟩
    · exact .imp_right fun ⟨p, hp, hop⟩ =>
        ⟨p, List.mem_singleton.mp hp ▸ List.mem_cons_self, hop⟩
    · exact .imp_right fun ⟨p, hp, hop⟩ => ⟨p, List.mem_cons_of_mem _ hp, hop⟩

theorem append (h : Turns turns s s₁) (h' : Turns turns' s₁ s') : Turns (turns ++ turns') s s' := by
  induction h with
  | nil => exact h'
  | cons hfirst _ ih => exact .cons hfirst (ih h')

/-- A turn has turns before and after it. -/
theorem of_append (h : Turns (turns ++ (t, queue) :: turns') s s') :
    ∃ s₁ s₂, Turns turns s s₁ ∧ Turn t queue s₁ s₂ ∧ Turns turns' s₂ s' := by
  induction turns generalizing s with
  | nil =>
    cases h with
    | cons hfirst hrest => exact ⟨s, _, .nil s, hfirst, hrest⟩
  | cons p turns ih =>
    cases h with
    | cons hfirst hrest =>
      obtain ⟨s₁, s₂, hbefore, hturn, hafter⟩ := ih hrest
      exact ⟨s₁, s₂, .cons hfirst hbefore, hturn, hafter⟩

/-- Work on classes, one after the other. -/
theorem of_run_forM (target : TypeDeclaration → TypeName)
    {realize : TypeDeclaration → ActionQueue → Step Unit}
    (hturn : ∀ d queue s u s', s.Idle → (realize d queue).run.run s = (.ok u, s') →
      Turn (target d) queue s s')
    {pending : List (TypeDeclaration × ActionQueue)} (hs : s.Idle)
    (h : (pending.forM fun (d, queue) => realize d queue).run.run s = (.ok u, s')) :
    Turns (pending.map fun p => (target p.1, p.2)) s s' := by
  induction pending generalizing s with
  | nil =>
    obtain ⟨-, rfl⟩ := Prod.mk.inj h
    exact .nil s
  | cons p pending ih =>
    obtain ⟨_, s₁, hfirst, hrest⟩ := of_run_bind_ok h
    have hturn := hturn p.1 p.2 s _ s₁ hs hfirst
    exact .cons hturn (ih (hturn.evolves hs).1 hrest)

end Turns

/-! ## Runs -/

theorem of_run_analyze {w w' : Workload} (h : (w.analyze d).run.run s = (.ok w', s')) :
    w' = w ∧ s' = s ∨ w.handler.accepts d = true ∧ ∃ queue,
      (w.handler.plan d).run.run s = (.ok (some queue), s') ∧
        w' = { w with pending := w.pending ++ [(d, queue)] } := by
  unfold Workload.analyze at h
  split_ifs at h with haccepts
  · obtain ⟨hw, rfl⟩ := Prod.mk.inj h
    exact .inl ⟨(Except.ok.inj hw).symm, rfl⟩
  · obtain ⟨found, s₁, hplan, hrest⟩ := of_run_bind_ok h
    cases found with
    | none => exact absurd hrest not_run_throw_ok
    | some queue =>
      obtain ⟨hw, rfl⟩ := Prod.mk.inj hrest
      exact .inr ⟨by simpa using haccepts, queue, hplan, (Except.ok.inj hw).symm⟩

/-- A failure is raised again, so success is that of the work on the classes. -/
theorem of_run_workload {w : Workload} (h : w.realize.run.run s = (.ok u, s')) :
    (w.pending.forM fun (d, queue) => w.handler.realize d queue).run.run s = (.ok u, s') := by
  rw [Workload.realize, run_tryCatch] at h
  split at h
  · next hpending => exact hpending.trans h
  · exact absurd h not_run_throw_ok

/-- What the generation handler has planned for types. -/
structure Generates (types : List TypeDeclaration)
    (pending : List (TypeDeclaration × ActionQueue)) : Prop where
  types : (pending.map Prod.fst).Sublist types
  accepted : ∀ p ∈ pending, p.1.directives.generate.isSome = true
  planned : ∀ p ∈ pending, ∀ x ∈ p.2, x.PlannedIn p.1

/-- What the handlers of every run have planned for types. -/
def Planned (fluent : Bool) (types : List TypeDeclaration) (workloads : List Workload) : Prop :=
  ∃ generated checked, workloads = [⟨.generation fluent, generated⟩, ⟨.nonNull, checked⟩] ∧
    Generates types generated ∧ ∀ p ∈ checked, p.2 = p.1.checkPlan

variable {fluent : Bool} {types : List TypeDeclaration} {workloads : List Workload}
  {pending : List (TypeDeclaration × ActionQueue)} {w : Workload}

theorem Generates.analyze (h : Generates types pending)
    (hrun : (Workload.analyze d ⟨.generation fluent, pending⟩).run.run s = (.ok w, s')) :
    Loads s s' ∧ ∃ pending', w = ⟨.generation fluent, pending'⟩ ∧
      Generates (types ++ [d]) pending' := by
  obtain ⟨rfl, rfl⟩ | ⟨haccepts, queue, hplan, rfl⟩ := of_run_analyze hrun
  · exact ⟨refl_of Loads s', pending, rfl, h.types.trans (List.sublist_append_left _ _),
      h.accepted, h.planned⟩
  · have hsound := Handler.sound_generation fluent
    refine ⟨(hsound.loads d).of_run hplan, _, rfl, ?_, ?_, ?_⟩
    · rw [List.map_append]
      exact h.types.append (List.Sublist.refl _)
    · refine List.forall_mem_append.mpr ⟨h.accepted, List.forall_mem_singleton.mpr ?_⟩
      exact (Bool.and_eq_true_iff.mp haccepts).1
    · refine List.forall_mem_append.mpr ⟨h.planned, List.forall_mem_singleton.mpr ?_⟩
      exact hsound.planned d s _ s' hplan queue rfl

/-- Other types have other names, and are generated into other classes. -/
theorem Generates.others {before after : List (TypeDeclaration × ActionQueue)}
    (h : Generates types (before ++ (d, queue) :: after))
    (hnames : (types.map TypeDeclaration.name).Nodup)
    (htargets : ∀ d' ∈ types, d'.directives.generate.isSome = true →
      d'.targetName = d.targetName → d' = d) :
    ∀ r ∈ before ++ after, r ∈ before ++ (d, queue) :: after ∧ r.1.name ≠ d.name ∧
      r.1.targetName ≠ d.targetName := by
  have hdistinct := (h.types.map TypeDeclaration.name).nodup hnames
  rw [List.map_map, List.map_append, List.map_cons, List.nodup_middle, List.nodup_cons,
    ← List.map_append, List.mem_map] at hdistinct
  intro r hr
  have hname : r.1.name ≠ d.name := fun hsame => hdistinct.1 ⟨r, hr, hsame⟩
  have hmem : r ∈ before ++ (d, queue) :: after :=
    List.mem_append.mpr ((List.mem_append.mp hr).imp_right (List.mem_cons_of_mem _))
  refine ⟨hmem, hname, fun hsame => hname ?_⟩
  have htype := h.types.subset (List.mem_map_of_mem hmem)
  rw [htargets r.1 htype (h.accepted r hmem) hsame]

theorem checks_analyze (h : ∀ p ∈ pending, p.2 = p.1.checkPlan)
    (hrun : (Workload.analyze d ⟨.nonNull, pending⟩).run.run s = (.ok w, s')) :
    Loads s s' ∧ ∃ pending', w = ⟨.nonNull, pending'⟩ ∧ ∀ p ∈ pending', p.2 = p.1.checkPlan := by
  obtain ⟨rfl, rfl⟩ | ⟨-, queue, hplan, rfl⟩ := of_run_analyze hrun
  · exact ⟨refl_of Loads s', pending, rfl, h⟩
  · obtain ⟨hqueue, rfl⟩ := Prod.mk.inj hplan
    obtain rfl := Option.some.inj (Except.ok.inj hqueue)
    exact ⟨refl_of Loads s, _, rfl,
      List.forall_mem_append.mpr ⟨h, List.forall_mem_singleton.mpr rfl⟩⟩

/-- Planning loads classes. -/
theorem planned_of_run_analyzeAll
    (h : (analyzeAll (Handler.standard fluent) types).run.run s = (.ok workloads, s')) :
    Loads s s' ∧ Planned fluent types workloads := by
  have hplans : Within (Loads s) (analyzeAll (Handler.standard fluent) types)
      (Planned fluent types) := by
    refine Within.foldlM (R := Planned fluent) (fun types workloads d _ hplanned => ?_) []
      ⟨[], [], rfl, ⟨List.Sublist.refl [], fun _ hp => (nomatch hp), fun _ hp => nomatch hp⟩,
        fun _ hp => nomatch hp⟩
    obtain ⟨generated, checked, rfl, hgenerated, hchecked⟩ := hplanned
    intro s₁ workloads s₂ hs₁ hrun
    simp only [List.mapM_cons, List.mapM_nil, pure_bind] at hrun
    obtain ⟨g, s₃, hgenerate, hrest⟩ := of_run_bind_ok hrun
    simp only [bind_assoc, pure_bind] at hrest
    obtain ⟨n, s₄, hcheck, hreturn⟩ := of_run_bind_ok hrest
    obtain ⟨hworkloads, rfl⟩ := Prod.mk.inj hreturn
    obtain rfl := Except.ok.inj hworkloads
    obtain ⟨hs₃, generated', rfl, hgenerated'⟩ := hgenerated.analyze hgenerate
    obtain ⟨hs₄, checked', rfl, hchecked'⟩ := checks_analyze hchecked hcheck
    exact ⟨trans_of Loads hs₁ (trans_of Loads hs₃ hs₄),
      generated', checked', rfl, hgenerated', hchecked'⟩
  exact hplans s workloads s' (refl_of Loads s) h

/-- A run is a sequence of turns: classes are generated, and then others are checked. -/
theorem turns_of_run_generateAll {s₁ : Session} (hs : s.Idle)
    (hplans : s.run (analyzeAll (Handler.standard fluent) s.model.sourceTypes) =
      (.ok workloads, s₁))
    (h : s.run (generateAll (Handler.standard fluent)) = (.ok u, s')) :
    Loads s s₁ ∧ ∃ generated checked,
      workloads = [⟨.generation fluent, generated⟩, ⟨.nonNull, checked⟩] ∧
      Generates s.model.sourceTypes generated ∧ (∀ p ∈ checked, p.2 = p.1.checkPlan) ∧
      Turns (generated.map (fun p => (p.1.targetName, p.2)) ++
        checked.map fun p => (⟨p.1.qualifiedName⟩, p.2)) s₁ s' := by
  obtain ⟨hloads, generated, checked, rfl, hgenerated, hchecked⟩ :=
    planned_of_run_analyzeAll hplans
  obtain ⟨start, _, hget, hrest⟩ := of_run_bind_ok h
  obtain ⟨rfl, rfl⟩ := of_run_get_ok hget
  obtain ⟨workloads, _, hanalyze, hrealize⟩ := of_run_bind_ok hrest
  obtain ⟨hworkloads, rfl⟩ := Prod.mk.inj (hanalyze.symm.trans hplans)
  obtain rfl := Except.ok.inj hworkloads
  obtain ⟨_, s₂, hgenerate, hrest⟩ := of_run_bind_ok hrealize
  obtain ⟨_, s₃, hcheck, hend⟩ := of_run_bind_ok hrest
  obtain ⟨-, rfl⟩ := Prod.mk.inj hend
  have hfirst := Turns.of_run_forM TypeDeclaration.targetName
    (fun _ _ _ _ _ => of_run_generate) (hs.loads hloads).1 (of_run_workload hgenerate)
  have hsecond := Turns.of_run_forM (fun d => ⟨d.qualifiedName⟩)
    (fun _ _ _ _ _ => of_run_check) (hfirst.evolves (hs.loads hloads).1).1
    (of_run_workload hcheck)
  exact ⟨hloads, generated, checked, rfl, hgenerated, hchecked, hfirst.append hsecond⟩

end Session

/-! ## Operations of actions -/

theorem TypeName.HasDescriptor.ne_void {t : TypeName} (h : t.HasDescriptor) : t ≠ .void := by
  cases h with
  | primitive p => cases p <;> decide
  | ofClass hname => exact fun hvoid => hname.notVoid (congrArg TypeName.text hvoid)
  | @arrayOf t _ =>
    intro hvoid
    have hlast := congrArg (fun t : TypeName => t.text.toList.getLast?) hvoid
    rw [TypeName.arrayOf] at hlast
    simp [void] at hlast

namespace FactoryPlan

variable {p q : FactoryPlan}

/-- The name and the descriptor of the method. -/
def key (p : FactoryPlan) : String × String :=
  (p.directive.method, methodDescriptor p.params p.sourceType)

/-- The types of the factory are read from its descriptor. -/
def Readable (p : FactoryPlan) : Prop :=
  parseMethodDescriptor (methodDescriptor p.params p.sourceType) = .ok (p.params, p.sourceType)

theorem Readable.types_of_key (hp : p.Readable) (hq : q.Readable) (h : p.key = q.key) :
    p.params = q.params ∧ p.sourceType = q.sourceType := by
  have hdescriptor : methodDescriptor p.params p.sourceType =
      methodDescriptor q.params q.sourceType := (Prod.mk.inj h).2
  rw [Readable, hdescriptor] at hp
  exact Prod.mk.inj (Except.ok.inj (hp.symm.trans hq))

end FactoryPlan

/-- The class has the static method of a factory. If it is to be made anew, it makes instances of
the implementation. -/
def ClassUnit.Bound (c : ClassUnit) (p : FactoryPlan) (implementation : TypeName) (anew : Prop) :
    Prop :=
  c.HasStatic p.key ∧ (anew → c.MakesInstances p.key implementation p.params p.sourceType)

namespace Action

variable {x : Action} {p q : FactoryPlan} {implementation t : TypeName} {op : ClassOp}
  {params : List TypeName}

/-- The types of constructors and factories have descriptors, and nothing else is named like a
constructor. -/
structure Regular (x : Action) : Prop where
  params : ∀ plan f, x = .constructor plan f → ∀ t ∈ plan.signature.params, t.HasDescriptor
  factory : ∀ p, x.factory? = some p →
    (∀ t ∈ p.params, t.HasDescriptor) ∧ p.sourceType.HasDescriptor
  name : ∀ params ret, x.added? = some (constructorName, params, ret) →
    ∃ plan f, x = .constructor plan f

theorem Regular.readable (h : x.Regular) (hp : x.factory? = some p) : p.Readable :=
  Descriptor.parse_methodDescriptor (h.factory p hp).1 (.inr (h.factory p hp).2)

/-- Only a constructor of the same parameters is added like this. -/
theorem Does.ne_constructor (h : x.Does implementation t op) (hx : x.Regular)
    (hparams : ∀ t ∈ params, t.HasDescriptor)
    (hother : t = implementation → x.added? ≠ some (constructorName, params, .void))
    (flags : UInt16) : op.added? ≠ some (flags, constructorName, methodDescriptor params .void) := by
  have hwanted := Descriptor.parse_methodDescriptor hparams (.inl rfl)
  intro hop
  cases h with
  | field => cases hop
  | @method _ name params' ret hadded body =>
    obtain ⟨-, hkey⟩ := Prod.mk.inj (Option.some.inj hop)
    obtain ⟨rfl, hdescriptor⟩ := Prod.mk.inj hkey
    obtain ⟨plan, f, rfl⟩ := hx.name _ _ hadded
    obtain ⟨rfl, rfl⟩ := Prod.mk.inj (Prod.mk.inj (Option.some.inj hadded)).2
    have hread := Descriptor.parse_methodDescriptor (hx.params _ _ rfl) (.inl rfl)
    rw [hdescriptor, hwanted] at hread
    obtain ⟨rfl, -⟩ := Prod.mk.inj (Except.ok.inj hread)
    exact hother rfl rfl
  | guards => cases hop
  | addFactory hp =>
    have hdescriptor := (Prod.mk.inj (Prod.mk.inj (Option.some.inj hop)).2).2
    have hread := hx.readable hp
    rw [FactoryPlan.Readable, hdescriptor, hwanted] at hread
    exact (hx.factory _ hp).2.ne_void (Prod.mk.inj (Except.ok.inj hread)).2.symm
  | replaceReturns => cases hop

/-- Only factories are static methods. -/
theorem Does.static (h : x.Does implementation t op) {flags : UInt16} {key : String × String}
    (hop : op.added? = some (flags, key))
    (hstatic : AccessFlags.has flags AccessFlags.isStatic = true) :
    ∃ p, x.factory? = some p ∧ p.key = key := by
  cases h with
  | field => cases hop
  | method =>
    obtain ⟨rfl, -⟩ := Prod.mk.inj (Option.some.inj hop)
    exact absurd hstatic (by decide)
  | guards => cases hop
  | addFactory hp => exact ⟨_, hp, (Prod.mk.inj (Option.some.inj hop)).2⟩
  | replaceReturns => cases hop

/-- Code is changed by guards and for factories. -/
theorem Does.code (h : x.Does implementation t op) {key : String × String}
    (hop : op.target? = some key) :
    (∃ gs, op = .insertBefore key.1 key.2 gs ∧ ∀ s ∈ gs, Synthesis.IsGuard s) ∨
      ∃ p, x.factory? = some p ∧ p.key = key ∧
        op = .replaceReturns key.1 key.2 (makeInstance implementation p.params) := by
  cases h with
  | field => cases hop
  | method => cases hop
  | guards m hgs =>
    obtain rfl := Option.some.inj hop
    exact .inl ⟨_, rfl, hgs⟩
  | addFactory => cases hop
  | replaceReturns hp =>
    obtain rfl := Option.some.inj hop
    exact .inr ⟨_, hp, rfl, rfl⟩

end Action

/-! ## Factories in a class -/

namespace ClassUnit.Bound

variable {c c' : ClassUnit} {p : FactoryPlan} {implementation : TypeName} {anew : Prop}
  {op : ClassOp}

theorem step (h : c.Bound p implementation anew) (hp : p.Readable)
    (hrun : c.runEdit op.step = (.ok (), c')) (hindexable : c'.file.pool.Indexable)
    (htarget : op.target? = some p.key →
      (∃ gs, op = .insertBefore p.key.1 p.key.2 gs ∧ ∀ s ∈ gs, Synthesis.IsGuard s) ∨
        op = .replaceReturns p.key.1 p.key.2 (Action.makeInstance implementation p.params)) :
    c'.Bound p implementation anew := by
  refine ⟨h.1.keep (.of_step hrun), fun hanew => ?_⟩
  by_cases hop : op.target? = some p.key
  · obtain hguards | rfl := htarget hop
    · exact (h.2 hanew).step hrun fun _ => hguards
    · obtain ⟨i, m, hfirst, hstatic⟩ := h.1
      exact makesInstances_replaceReturns hrun hp hfirst hstatic hindexable
  · exact (h.2 hanew).step hrun fun htarget => absurd htarget hop

end ClassUnit.Bound

namespace View.Evolves

variable {ops : TypeName → ClassOp → Prop} {v v' : View} {t : TypeName} {p : FactoryPlan}
  {implementation : TypeName} {P anew : Prop}

theorem lacks {key : String × String} (h : Evolves ops v v') (hv' : v'.IndexableAt t)
    (hops : ∀ op flags, ops t op → op.added? ≠ some (flags, key))
    (hv : ∀ c, v t = .ok (some c) → c.Lacks key) : ∀ c, v' t = .ok (some c) → c.Lacks key :=
  h.keep hv' (fun op _ _ hop hrun hindexable hlacks =>
    hlacks.step hrun (fun flags => hops op flags hop) hindexable) (fun _ _ hm => nomatch hm) hv

/-- Other factories leave it open whether there is a static method of the key. -/
theorem statics (h : Evolves ops v v') (hv' : v'.IndexableAt t)
    (hops : ∀ op flags key, ops t op → op.added? = some (flags, key) →
      AccessFlags.has flags AccessFlags.isStatic = true →
        ∃ q : FactoryPlan, q.Readable ∧ q.key = key ∧ q.key ≠ p.key)
    (hv : ∀ c, v t = .ok (some c) → c.Statics p.key P) :
    ∀ c, v' t = .ok (some c) → c.Statics p.key P := by
  refine h.keep hv' (fun op _ _ hop hrun hindexable hstatics => ?_) (fun _ _ hm => nomatch hm) hv
  refine hstatics.step hrun (fun flags name descriptor hadded hstatic => ?_) hindexable
  obtain ⟨q, hq, hkey, hne⟩ := hops op flags _ hop hadded hstatic
  obtain ⟨rfl, rfl⟩ := Prod.mk.inj hkey
  exact ⟨⟨_, _, rfl, hq⟩, fun hsame => absurd hsame hne⟩

/-- A factory stays bound. -/
theorem bound (h : Evolves ops v v') (hv' : v'.IndexableAt t) (hp : p.Readable)
    (hops : ∀ op, ops t op → op.target? = some p.key →
      (∃ gs, op = .insertBefore p.key.1 p.key.2 gs ∧ ∀ s ∈ gs, Synthesis.IsGuard s) ∨
        op = .replaceReturns p.key.1 p.key.2 (Action.makeInstance implementation p.params))
    (hv : ∃ c, v t = .ok (some c) ∧ c.Bound p implementation anew) :
    ∃ c, v' t = .ok (some c) ∧ c.Bound p implementation anew :=
  h.keep_some hv' (fun op _ _ hop hrun hindexable hbound =>
    hbound.step hp hrun hindexable (hops op hop)) hv

end View.Evolves

/-! ## The turn of a type -/

namespace Action

variable {x : Action} {d : TypeDeclaration} {p : FactoryPlan}

/-- Factories come with constructors. -/
theorem PlannedIn.added_of_factory (h : x.PlannedIn d) (hp : x.factory? = some p) :
    x.added? = some (constructorName, p.params, .void) ∧ p.sourceType = d.name := by
  cases h with
  | method h => cases h <;> cases hp
  | constructor plan =>
    unfold TypeDeclaration.factoryBinding? at hp
    cases hfactory : d.directives.factory with
    | none =>
      rw [hfactory] at hp
      cases hp
    | some directive =>
      rw [hfactory] at hp
      obtain rfl := Option.some.inj hp
      exact ⟨rfl, rfl⟩
  | equals => cases hp
  | hashCode => cases hp
  | display => cases hp

end Action

namespace Session

variable {t : TypeName} {queue : ActionQueue} {d : TypeDeclaration} {s s' : Session}
  {plan : ConstructorPlan} {f : FactoryBinding} {P : Prop}

/-- The first constructor of the parameters is added, and its factory is bound. -/
theorem bound_of_addConstructor {u : Unit} (hs : s.WorksOn t)
    (hrun : (Action.addConstructor plan (some f)).run.run s = (.ok u, s'))
    (hindexable : ∀ t, s'.view.IndexableAt t) (hp : (f.planFor plan.signature.params).Readable)
    (hlacks : ∀ c, s.view t = .ok (some c) →
      c.Lacks (constructorName, methodDescriptor plan.signature.params .void))
    (hstatics : ∀ c, s.view (.ofText f.directive.location) = .ok (some c) →
      c.Statics (f.planFor plan.signature.params).key P) :
    ∃ c, s'.view (.ofText f.directive.location) = .ok (some c) ∧
      c.Bound (f.planFor plan.signature.params) t (f.directive.overrideReturn = true ∨ ¬ P) := by
  obtain ⟨c, hc, ⟨hthere, -⟩ | ⟨body, c₁, s₁, hadd, hs₁, hview₁, hfactory⟩⟩ :=
    Action.of_run_addConstructor hs hrun
  · have habsent := (hlacks c hc).hasMethod
    rw [ClassUnit.hasConstructor, habsent] at hthere
    cases hthere
  obtain ⟨hnone, -⟩ | ⟨_, u, hsome, hbind⟩ := hfactory
  · cases hnone
  obtain rfl := Option.some.inj hsome
  have hto := (Action.evolving_addFactory (x := .constructor plan (some f)) rfl s₁ u s' hs₁ hbind).2
  obtain ⟨unit, changed, edited, hunit, hedit, -, hview'⟩ := Action.of_run_addFactory hs₁ hbind
  -- A constructor is no static method.
  have hadded : View.Evolves (fun _ op => op = .addMethod AccessFlags.isPublic constructorName
      plan.signature.params .void body) s.view s₁.view := by
    rw [hview₁]
    exact .single (.edit rfl hc hadd)
  have hstatics₁ := hadded.statics (hto.indexableAt (hindexable _)) (fun op flags key hop hkey => by
    obtain rfl := hop
    obtain ⟨rfl, -⟩ := Prod.mk.inj (Option.some.inj hkey)
    exact fun hstatic => absurd hstatic (by decide)) hstatics
  have hstatics₂ : unit.Statics (f.planFor plan.signature.params).key P := by
    obtain hthere | ⟨-, major, rfl⟩ := hunit
    · exact hstatics₁ unit hthere
    · exact fun _ hm => nomatch hm
  have hlast : s'.view (.ofText f.directive.location) = .ok (some edited) := by
    rw [hview']
    exact Function.update_self _ _ _
  exact ⟨edited, hlast,
    ClassUnit.binds_bindFactory hedit hp hstatics₂ (hindexable _ edited hlast)⟩

/-- Of the constructors of a queue with the same parameters the first one counts. All have the factory
of the type. -/
theorem exists_firstConstructor (hplanned : ∀ x ∈ queue, x.PlannedIn d)
    (hregular : ∀ x ∈ queue, x.Regular) (hf : d.factoryBinding? = some f)
    (hx : .constructor plan (some f) ∈ queue) :
    ∃ pre plan' post, queue = pre ++ .constructor plan' (some f) :: post ∧
      plan'.signature.params = plan.signature.params ∧
      ∀ x ∈ pre, x.added? ≠ some (constructorName, plan.signature.params, .void) := by
  obtain ⟨y, hfirst⟩ : ∃ y, queue.find? (fun x =>
      x.added? == some (constructorName, plan.signature.params, .void)) = some y :=
    Option.isSome_iff_exists.mp (List.find?_isSome.mpr ⟨_, hx, beq_self_eq_true _⟩)
  obtain ⟨hy, pre, post, rfl, hpre⟩ := List.find?_eq_some_iff_append.mp hfirst
  rw [beq_iff_eq] at hy
  have hmem : y ∈ pre ++ y :: post := List.mem_append_right _ List.mem_cons_self
  obtain ⟨plan', binding, rfl⟩ := (hregular y hmem).name _ _ hy
  obtain rfl : binding = some f := by
    cases hplanned _ hmem with
    | method h => cases h
    | constructor => exact hf
  have hsame : plan'.signature.params = plan.signature.params :=
    (Prod.mk.inj (Prod.mk.inj (Option.some.inj hy)).2).1
  exact ⟨pre, plan', post, rfl, hsame, fun x hx hadded => by simpa [hadded] using hpre x hx⟩

/-- The actions in front of a constructor add others, and bind the factories of others. -/
theorem spares_before {pre : ActionQueue} {p : FactoryPlan} (hp : p.Readable)
    (hparams : ∀ t ∈ p.params, t.HasDescriptor)
    (hplanned : ∀ x ∈ pre, x.PlannedIn d) (hregular : ∀ x ∈ pre, x.Regular)
    (hpre : ∀ x ∈ pre, x.added? ≠ some (constructorName, p.params, .void)) :
    (∀ op flags, pre.Does t t op →
      op.added? ≠ some (flags, constructorName, methodDescriptor p.params .void)) ∧
    ∀ u op flags key, pre.Does t u op → op.added? = some (flags, key) →
      AccessFlags.has flags AccessFlags.isStatic = true →
        ∃ q : FactoryPlan, q.Readable ∧ q.key = key ∧ q.key ≠ p.key := by
  constructor
  · rintro op flags ⟨x, hx, hop⟩
    exact hop.ne_constructor (hregular x hx) hparams (fun _ => hpre x hx) flags
  · rintro u op flags key ⟨x, hx, hop⟩ hadded hstatic
    obtain ⟨q, hq, rfl⟩ := hop.static hadded hstatic
    have hread := (hregular x hx).readable hq
    refine ⟨q, hread, rfl, fun hsame => hpre x hx ?_⟩
    rw [← (hread.types_of_key hp hsame).1]
    exact ((hplanned x hx).added_of_factory hq).1

/-- The actions behind a constructor do to its factory what was done before. -/
theorem rebinds_after {post : ActionQueue} {p : FactoryPlan} (hp : p.Readable)
    (hregular : ∀ x ∈ post, x.Regular) {u : TypeName} {op : ClassOp} (hop : post.Does t u op)
    (htarget : op.target? = some p.key) :
    (∃ gs, op = .insertBefore p.key.1 p.key.2 gs ∧ ∀ s ∈ gs, Synthesis.IsGuard s) ∨
      op = .replaceReturns p.key.1 p.key.2 (Action.makeInstance t p.params) := by
  obtain ⟨x, hx, hop⟩ := hop
  refine (hop.code htarget).imp_right fun ⟨q, hq, hkey, hreplace⟩ => ?_
  rw [← (((hregular x hx).readable hq).types_of_key hp hkey).1]
  exact hreplace

/-- A turn whose class has no such constructor binds its factory. -/
theorem Turn.bound (h : Turn t queue s s')
    (hplanned : ∀ x ∈ queue, x.PlannedIn d) (hregular : ∀ x ∈ queue, x.Regular)
    (hf : d.factoryBinding? = some f) (hx : .constructor plan (some f) ∈ queue)
    (hlacks : ∀ c, s.view t = .ok (some c) →
      c.Lacks (constructorName, methodDescriptor plan.signature.params .void))
    (hstatics : ∀ c, s.view (.ofText f.directive.location) = .ok (some c) →
      c.Statics (f.planFor plan.signature.params).key P) :
    ∃ c, s'.view (.ofText f.directive.location) = .ok (some c) ∧
      c.Bound (f.planFor plan.signature.params) t (f.directive.overrideReturn = true ∨ ¬ P) := by
  have hparams := (hregular _ hx).params _ _ rfl
  have hp : (f.planFor plan.signature.params).Readable := (hregular _ hx).readable rfl
  cases h with
  | idle => cases hx
  | @work _ _ s₀ s₁ _ hstart hview hactions hend =>
    obtain ⟨pre, plan', post, rfl, hsame, hpre⟩ :=
      exists_firstConstructor hplanned hregular hf hx
    obtain ⟨hregularPre, hregularY⟩ := List.forall_mem_append.mp hregular
    obtain ⟨hplannedPre, -⟩ := List.forall_mem_append.mp hplanned
    have hregularPost := (List.forall_mem_cons.mp hregularY).2
    obtain ⟨sa, sb, hrunPre, hrunY, hrunPost⟩ := ActionQueue.of_run_applyAll hactions
    obtain ⟨hsa, htoPre⟩ := ActionQueue.evolving_applyAll pre _ _ _ hstart hrunPre
    have hlabel : Session.WorksOn t
        { sa with currentAction? := some (Action.constructor plan' (some f)).label } :=
      ⟨hsa.pool, hsa.current⟩
    obtain ⟨hsb, htoY⟩ := Action.evolving_apply _ _ _ _ hlabel hrunY
    obtain ⟨hs₁, htoPost⟩ := ActionQueue.evolving_applyAll post _ _ _ hsb hrunPost
    obtain ⟨hs', hview'⟩ := hend hs₁
    -- Whatever is published can be written, so the classes before can.
    have hindexable₁ : ∀ u, s₁.view.IndexableAt u := by
      rw [← hview', hs'.view_eq]
      exact hs'.pool.indexable
    have hindexableB := fun u => htoPost.indexableAt (hindexable₁ u)
    have hindexableA : ∀ u, sa.view.IndexableAt u := fun u => htoY.indexableAt (hindexableB u)
    have hindexable₀ := fun u => htoPre.indexableAt (hindexableA u)
    obtain ⟨hspares, hstatic⟩ :=
      spares_before (t := t) hp hparams hplannedPre hregularPre hpre
    have hlacksA := htoPre.lacks (hindexableA t) hspares
      (hview.lacks (hindexable₀ t) (fun op flags hop hadded => by
        rw [hop.1] at hadded
        cases hadded) hlacks)
    have hstaticsA := htoPre.statics (hindexableA _) (hstatic _)
      (hview.statics (hindexable₀ _) (fun op flags key hop hadded => by
        rw [hop.1] at hadded
        cases hadded) hstatics)
    have hbound := bound_of_addConstructor hlabel hrunY hindexableB (hsame ▸ hp)
      (hsame ▸ hlacksA) (hsame ▸ hstaticsA)
    rw [hsame] at hbound
    rw [hview']
    exact htoPost.bound (hindexable₁ _) hp
      (fun op hop => rebinds_after hp hregularPost hop) hbound

/-! ## The turns of others -/

/-- The action binds no factory for the source type, and adds no such constructor to the class of
the implementation. -/
structure Spares (implementation : TypeName) (p : FactoryPlan) (t : TypeName) (x : Action) :
    Prop where
  regular : x.Regular
  factory : ∀ q, x.factory? = some q → q.sourceType ≠ p.sourceType
  constructor : t = implementation → x.added? ≠ some (constructorName, p.params, .void)

variable {turns : List (TypeName × ActionQueue)} {p : FactoryPlan} {implementation : TypeName}

theorem spares_turns (hp : p.Readable) (hparams : ∀ t ∈ p.params, t.HasDescriptor)
    (hturns : ∀ r ∈ turns, ∀ x ∈ r.2, Spares implementation p r.1 x) :
    (∀ op flags, TurnOps turns implementation op →
      op.added? ≠ some (flags, constructorName, methodDescriptor p.params .void)) ∧
    (∀ u op flags key, TurnOps turns u op → op.added? = some (flags, key) →
      AccessFlags.has flags AccessFlags.isStatic = true →
        ∃ q : FactoryPlan, q.Readable ∧ q.key = key ∧ q.key ≠ p.key) ∧
    ∀ u op, TurnOps turns u op → op.target? = some p.key →
      ∃ gs, op = .insertBefore p.key.1 p.key.2 gs ∧ ∀ s ∈ gs, Synthesis.IsGuard s := by
  have hother : ∀ r ∈ turns, ∀ x ∈ r.2, ∀ q, x.factory? = some q → q.Readable ∧ q.key ≠ p.key := by
    intro r hr x hx q hq
    have hspares := hturns r hr x hx
    have hread := hspares.regular.readable hq
    exact ⟨hread, fun hsame => hspares.factory q hq (hread.types_of_key hp hsame).2⟩
  refine ⟨?_, ?_, ?_⟩
  · rintro op flags (hleaves | ⟨r, hr, x, hx, hop⟩)
    · rw [hleaves.1]
      exact fun hnone => nomatch hnone
    · have hspares := hturns r hr x hx
      exact hop.ne_constructor hspares.regular hparams (fun h => hspares.constructor h.symm) flags
  · rintro u op flags key (hleaves | ⟨r, hr, x, hx, hop⟩) hadded hstatic
    · rw [hleaves.1] at hadded
      cases hadded
    · obtain ⟨q, hq, rfl⟩ := hop.static hadded hstatic
      obtain ⟨hread, hne⟩ := hother r hr x hx q hq
      exact ⟨q, hread, rfl, hne⟩
  · rintro u op (hleaves | ⟨r, hr, x, hx, hop⟩) htarget
    · rw [hleaves.2] at htarget
      cases htarget
    · refine (hop.code htarget).resolve_right fun ⟨q, hq, hkey, _⟩ => ?_
      exact (hother r hr x hx q hq).2 hkey

/-- A turn binds its factories whatever the turns before it do, and those after it leave them
bound. -/
theorem Turns.bound {before after : List (TypeName × ActionQueue)}
    (h : Turns (before ++ (t, queue) :: after) s s') (hs : s.Idle)
    (hplanned : ∀ x ∈ queue, x.PlannedIn d) (hregular : ∀ x ∈ queue, x.Regular)
    (hf : d.factoryBinding? = some f) (hx : .constructor plan (some f) ∈ queue)
    (hbefore : ∀ r ∈ before, ∀ x ∈ r.2, Spares t (f.planFor plan.signature.params) r.1 x)
    (hafter : ∀ r ∈ after, ∀ x ∈ r.2, Spares t (f.planFor plan.signature.params) r.1 x)
    (hlacks : ∀ c, s.view t = .ok (some c) →
      c.Lacks (constructorName, methodDescriptor plan.signature.params .void))
    (hstatics : ∀ c, s.view (.ofText f.directive.location) = .ok (some c) →
      c.Statics (f.planFor plan.signature.params).key P) :
    ∃ c, s'.view (.ofText f.directive.location) = .ok (some c) ∧
      c.Bound (f.planFor plan.signature.params) t (f.directive.overrideReturn = true ∨ ¬ P) := by
  have hparams := (hregular _ hx).params _ _ rfl
  have hp : (f.planFor plan.signature.params).Readable := (hregular _ hx).readable rfl
  obtain ⟨s₁, s₂, hfirst, hturn, hlast⟩ := h.of_append
  obtain ⟨hs₁, hto₁⟩ := hfirst.evolves hs
  have hs₂ := (hturn.evolves hs₁).1
  obtain ⟨hs', hto'⟩ := hlast.evolves hs₂
  have hindexable : ∀ {s : Session}, s.Idle → ∀ u, s.view.IndexableAt u := fun hs => by
    rw [hs.view_eq]
    exact hs.pool.indexable
  obtain ⟨hspares, hstatic, -⟩ := spares_turns hp hparams hbefore
  obtain ⟨-, -, hguards⟩ := spares_turns hp hparams hafter
  have hbound := hturn.bound hplanned hregular hf hx
    (hto₁.lacks (hindexable hs₁ _) hspares hlacks)
    (hto₁.statics (hindexable hs₁ _) (hstatic _) hstatics)
  exact hto'.bound (hindexable hs' _) hp (fun op hop htarget => .inl (hguards _ op hop htarget))
    hbound

end Session

/-! ## All types of a run -/

namespace ClassUnit

variable {c : ClassUnit} {p : FactoryPlan}

/-- The static methods of the class can be read, and their descriptors are those of the types that
are read. -/
def Canonical (c : ClassUnit) : Prop :=
  ∀ m ∈ c.file.methods, m.isStatic = true →
    ∃ sig, c.methodSig m = .ok sig ∧ c.file.methodKey m = .ok (sig.name, sig.descriptor)

theorem Canonical.statics (h : c.Canonical) (hp : p.Readable) {P : Prop}
    (habsent : ¬ P → c.method? p.key.1 p.key.2 = .ok none) : c.Statics p.key P := by
  intro m hm hstatic
  obtain ⟨sig, hsig, hkey⟩ := h m hm hstatic
  refine ⟨sig, hsig, fun hsame => ⟨hsame ▸ hkey, ?_⟩⟩
  by_contra hP
  obtain ⟨other, hother, hne⟩ := lacks_of_method? hp (habsent hP) m hm
  exact hne ((Except.ok.inj (hother.symm.trans hkey)).trans hsame)

end ClassUnit

namespace Environment

open Session

variable {e : Environment} {c : Config} {m : TypeModel} {s s₁ s' : Session}

theorem idle_of_session (h : e.session c m = .ok s) : s.Idle := by
  obtain ⟨p, hpool, hs⟩ := Checked.bind_eq_ok.mp h
  have hcache := (of_session h).2.1
  obtain rfl := Except.ok.inj hs
  exact ⟨ClassPool.fit_of_empty hcache, rfl⟩

/-- Planned work on other types does nothing to the factories of a type. -/
theorem spares_of_generates {types : List TypeDeclaration}
    {generated others : List (TypeDeclaration × ActionQueue)} {d : TypeDeclaration}
    {p : FactoryPlan} (h : Generates types generated) (hp : p.sourceType = d.name)
    (hregular : ∀ r ∈ generated, ∀ x ∈ r.2, x.Regular)
    (hothers : ∀ r ∈ others, r ∈ generated ∧ r.1.name ≠ d.name ∧ r.1.targetName ≠ d.targetName) :
    ∀ r ∈ others.map (fun p => (p.1.targetName, p.2)), ∀ x ∈ r.2,
      Spares d.targetName p r.1 x := by
  refine List.forall_mem_map.mpr fun r hr x hx => ?_
  obtain ⟨hr, hname, htarget⟩ := hothers r hr
  refine ⟨hregular r hr x hx, fun q hq hsame => hname ?_, fun hsame => absurd hsame htarget⟩
  rw [← ((h.planned r hr x hx).added_of_factory hq).2, hsame, hp]

/-- Checks do nothing to any factory. -/
theorem spares_of_checks {checked : List (TypeDeclaration × ActionQueue)}
    {implementation : TypeName} {p : FactoryPlan}
    (h : ∀ r ∈ checked, r.2 = r.1.checkPlan) :
    ∀ r ∈ checked.map (fun p => ((⟨p.1.qualifiedName⟩ : TypeName), p.2)), ∀ x ∈ r.2,
      Spares implementation p r.1 x := by
  refine List.forall_mem_map.mpr fun r hr x hx => ?_
  rw [h r hr] at hx
  obtain ⟨m, -, rfl⟩ := List.mem_map.mp (List.mem_reverse.mp hx)
  refine ⟨⟨fun _ _ h => (nomatch h), fun _ h => (nomatch h), fun _ _ h => nomatch h⟩,
    fun _ h => (nomatch h), fun _ h => nomatch h⟩

/-- **Factories.** A run that succeeds leaves, at the location of the factory of a type, a static
method for each constructor that was planned, unless the class of the type had the constructor
before. If the directive overrides what is returned, or if there was no such method, each of its
returns gives a new instance of the generated class. -/
theorem factories_bound {u : Unit} {workloads : List Workload} {w : Workload}
    {d : TypeDeclaration} {queue : ActionQueue} {plan : ConstructorPlan} {f : FactoryDirective}
    (hsession : e.session c m = .ok s)
    (hplans : s.run (analyzeAll (Handler.standard c.fluentNaming) m.sourceTypes) =
      (.ok workloads, s₁))
    (hrun : s.run (generateAll (Handler.standard c.fluentNaming)) = (.ok u, s'))
    (hregular : ∀ w ∈ workloads, ∀ r ∈ w.pending, ∀ x ∈ r.2, x.Regular)
    (hnames : (m.sourceTypes.map TypeDeclaration.name).Nodup)
    (htargets : ∀ d' ∈ m.sourceTypes, d'.directives.generate.isSome = true →
      d'.targetName = d.targetName → d' = d)
    (hw : w ∈ workloads) (hqueue : (d, queue) ∈ w.pending)
    (hf : d.directives.factory = some f) (hx : .constructor plan d.factoryBinding? ∈ queue)
    (hnew : ∀ unit, s.pool.lookup d.targetName.text = .ok (some unit) →
      unit.method? constructorName (methodDescriptor plan.signature.params .void) = .ok none)
    (hcanonical : ∀ unit, s.pool.lookup (TypeName.ofText f.location).text = .ok (some unit) →
      unit.Canonical) :
    ∃ unit, s'.pool.lookup (TypeName.ofText f.location).text = .ok (some unit) ∧
      unit.HasStatic (f.method, methodDescriptor plan.signature.params d.name) ∧
      (f.overrideReturn = true ∨
          (∀ unit, s.pool.lookup (TypeName.ofText f.location).text = .ok (some unit) →
            unit.method? f.method (methodDescriptor plan.signature.params d.name) = .ok none) →
        unit.MakesInstances (f.method, methodDescriptor plan.signature.params d.name) d.targetName
          plan.signature.params d.name) := by
  obtain ⟨hmodel, -, -⟩ := of_session hsession
  have hs := idle_of_session hsession
  obtain ⟨hloads, generated, checked, rfl, hgenerated, hchecked, hturns⟩ :=
    turns_of_run_generateAll hs (hmodel ▸ hplans) hrun
  rw [hmodel] at hgenerated
  obtain ⟨hs₁, hview₁⟩ := hs.loads hloads
  have hs' := (hturns.evolves hs₁).1
  have hmem : (d, queue) ∈ generated := by
    obtain rfl | hw := List.mem_cons.mp hw
    · exact hqueue
    · obtain rfl := List.mem_singleton.mp hw
      have hplanned : queue = d.checkPlan := hchecked _ hqueue
      rw [hplanned] at hx
      obtain ⟨_, -, hx⟩ := List.mem_map.mp (List.mem_reverse.mp hx)
      cases hx
  have hregularAll : ∀ r ∈ generated, ∀ x ∈ r.2, x.Regular :=
    hregular ⟨.generation c.fluentNaming, generated⟩ List.mem_cons_self
  have hbinding : d.factoryBinding? = some ⟨f, d.name⟩ := by
    rw [TypeDeclaration.factoryBinding?, hf]
    rfl
  rw [hbinding] at hx
  have hparams := (hregularAll _ hmem _ hx).params _ _ rfl
  have hp : (FactoryBinding.planFor ⟨f, d.name⟩ plan.signature.params).Readable :=
    (hregularAll _ hmem _ hx).readable rfl
  obtain ⟨before, after, rfl⟩ := List.append_of_mem hmem
  have hspares := spares_of_generates hgenerated (p := FactoryBinding.planFor ⟨f, d.name⟩
    plan.signature.params) rfl hregularAll (hgenerated.others hnames htargets)
  rw [List.map_append] at hspares
  obtain ⟨hbefore, hafter⟩ := List.forall_mem_append.mp hspares
  rw [List.map_append, List.map_cons, List.append_assoc, List.cons_append] at hturns
  have hlacks : ∀ unit, s₁.view d.targetName = .ok (some unit) →
      unit.Lacks (constructorName, methodDescriptor plan.signature.params .void) := by
    intro unit hunit
    rw [hview₁, hs.view_eq] at hunit
    exact ClassUnit.lacks_of_method? (Descriptor.parse_methodDescriptor hparams (.inl rfl))
      (hnew unit hunit)
  have hstatics : ∀ unit, s₁.view (.ofText f.location) = .ok (some unit) →
      unit.Statics (FactoryBinding.planFor ⟨f, d.name⟩ plan.signature.params).key
        (¬ ∀ unit, s.pool.lookup (TypeName.ofText f.location).text = .ok (some unit) →
          unit.method? f.method (methodDescriptor plan.signature.params d.name) = .ok none) := by
    intro unit hunit
    rw [hview₁, hs.view_eq] at hunit
    exact (hcanonical unit hunit).statics hp fun hnot => not_not.mp hnot unit hunit
  obtain ⟨unit, hunit, hstatic, hmakes⟩ := hturns.bound hs₁ (hgenerated.planned _ hmem)
    (hregularAll _ hmem) hbinding hx hbefore
    (List.forall_mem_append.mpr ⟨hafter, spares_of_checks hchecked⟩) hlacks hstatics
  rw [hs'.view_eq] at hunit
  exact ⟨unit, hunit, hstatic, fun hanew => hmakes (hanew.imp_right not_not_intro)⟩

/-! ### A factory in the generated class -/

namespace PersonFactory

open ClassUnit (objectInternalName)
open ConstantPool (addClass addMethodRef addNameAndType holds_constant)
open Emit

def directive : FactoryDirective := { location := "demo.PersonImpl", method := "of" }

/-- An interface that asks for a constructor without parameters, and for a factory next to it. -/
def person : TypeDeclaration where
  qualifiedName := "demo.Person"
  directives := {
    generate := some {}
    constructor := some { kinds := [.noArgs] }
    factory := some directive }

def plan : ConstructorPlan := { members := [] }

def queue : ActionQueue := [.constructor plan (some ⟨directive, person.name⟩)]

def model : TypeModel := { types := [person] }

/-- The constants of the constructor and of the factory. -/
def constants : List Constant :=
  [.utf8 "demo/PersonImpl", .classRef 1, .utf8 "java/lang/Object", .classRef 3,
    .utf8 "demo/Person", .classRef 5, .utf8 "<init>", .utf8 "()V", .utf8 "Code",
    .nameAndType 7 8, .methodRef 4 10, .methodRef 2 10, .utf8 "of", .utf8 "()Ldemo/Person;"]

/-- The class before the run. It has no members. -/
def bare : ClassUnit where
  name := ⟨"demo.PersonImpl"⟩
  file := {
    major := 52, flags := 0x21, thisClass := 2, superClass := 4, interfaces := [6]
    pool := .pushAll .empty constants }

def bytes : Bytes := bare.toBytes.toOption.getD []

def files : FileTree := { files := [(["classes", "demo", "PersonImpl.class"], bytes)] }

def config : Config := { classPath := ["classes"] }

/-- The start of a run with the class on the class path. -/
def start : Session where
  model
  pool := { layers := [.builtin, .directory "classes" files, .model model 52], major := 52 }

theorem lookup_bare : start.pool.lookup bare.name.text = .ok (some bare) := by
  have hsearch : (ClassPool.search bare.name.text start.pool.layers).toOption.join.map
      (fun unit => (unit.name,
        [unit.isStub, unit.file.fields.isEmpty, unit.file.methods.isEmpty,
          unit.file.attributes.isEmpty],
        [unit.file.minor, unit.file.major, unit.file.flags, unit.file.thisClass,
          unit.file.superClass] ++ unit.file.interfaces,
        unit.file.pool.slots.toList)) =
      some (bare.name, [false, true, true, true], [0, 52, 0x21, 2, 4, 6], constants.map some) := by
    decide +kernel
  obtain ⟨unit, hunit, hparts⟩ := Option.map_eq_some_iff.mp hsearch
  obtain ⟨name, ⟨minor, major, pool, flags, thisClass, superClass, interfaces, fields, methods,
    attributes⟩, isStub⟩ := unit
  simp only [List.cons_append, List.nil_append, Prod.mk.injEq, List.cons.injEq, List.isEmpty_iff,
    and_true] at hparts
  obtain ⟨rfl, ⟨rfl, rfl, rfl, rfl⟩, ⟨rfl, rfl, rfl, rfl, rfl, rfl⟩, hslots⟩ := hparts
  obtain rfl : pool = .pushAll .empty constants :=
    ConstantPool.ext_slots (Array.toList_inj.mp (hslots.trans (by decide +kernel)))
  exact ClassPool.lookup_of_search (ClassPool.cached?_of_empty rfl) hunit

/-! The constants are there. -/

theorem holds_class : bare.file.pool.Holds (addClass bare.name.internalName) 2 :=
  (holds_constant 0 rfl).bind (holds_constant 1 rfl)

theorem holds_person : bare.file.pool.Holds (addClass person.name.internalName) 6 :=
  (holds_constant 4 rfl).bind (holds_constant 5 rfl)

theorem holds_nameAndType :
    bare.file.pool.Holds (addNameAndType constructorName (methodDescriptor [] .void)) 10 :=
  (holds_constant 6 rfl).bind ((holds_constant 7 rfl).bind (holds_constant 9 rfl))

theorem holds_inherited : bare.file.pool.Holds
    (addMethodRef objectInternalName constructorName (methodDescriptor [] .void)) 11 :=
  ((holds_constant 2 rfl).bind (holds_constant 3 rfl)).bind <|
    holds_nameAndType.bind (holds_constant 10 rfl)

theorem holds_constructor : bare.file.pool.Holds
    (addMethodRef bare.name.internalName constructorName (methodDescriptor [] .void)) 12 :=
  holds_class.bind (holds_nameAndType.bind (holds_constant 11 rfl))

/-! The constructor calls the inherited one. -/

def constructorContext : MethodContext :=
  ClassUnit.methodContext bare.name 1 constructorName [] .void

def constructorCode : EmittedCode := ⟨[0x2a, 183, 0, 11, 177], 1, 1, []⟩

/-- The emitter where the constructor starts. -/
def entered : Emitter where
  pool := bare.file.pool
  entry := [.uninitializedThis]
  slots := ⟨[.uninitializedThis], []⟩
  maxLocals := 1
  nextLocal := 1

/-- The emitter behind the receiver. -/
def loaded : Emitter :=
  { entered with
    code := #[.simple 0x2a]
    pc := 1
    slots := ⟨[.uninitializedThis], [.uninitializedThis]⟩
    maxStack := 1 }

/-- The emitter behind the call. -/
def constructed : Emitter :=
  { loaded with
    code := #[.simple 0x2a, ⟨Opcode.invokespecial, .short 11⟩]
    pc := 4
    slots := ⟨[.object 2], []⟩ }

/-- The emitter behind the constructor. -/
def left : Emitter :=
  { constructed with
    code := constructed.code.push (.simple 177)
    pc := 5
    reachable := false }

theorem runs_superInit :
    Runs (stmt (.superInit .object [] [])) constructorContext entered () constructed := by
  have hcall : Runs (callConstructor .object []) constructorContext loaded ()
      { constructed with slots := ⟨[.uninitializedThis], []⟩ } := by
    rw [callConstructor, constructorRef, methodRef]
    exact (runs_addConstants_of_holds holds_inherited).mpr rfl
  rw [stmt]
  refine runs_bind.mpr ⟨(), loaded, rfl, runs_bind.mpr ⟨(), _, rfl, runs_bind.mpr ⟨(), _, rfl,
    runs_bind.mpr ⟨(), _, hcall, runs_read_bind.mpr ?_⟩⟩⟩⟩
  exact (runs_addConstants_of_holds holds_class).mpr rfl

theorem emitMethod_constructor :
    emitMethod constructorContext (plan.body bare.name .object) bare.file.pool =
      (.ok constructorCode, bare.file.pool) := by
  have hstmts : Runs (stmts [.superInit .object [] [], .ret none]) constructorContext entered ()
      left := by
    rw [stmts]
    exact runs_bind.mpr ⟨(), _, rfl, runs_bind.mpr ⟨(), _, runs_superInit, rfl⟩⟩
  have hruns : Runs (do stmts (plan.body bare.name .object); endMethod) constructorContext
      (Emit.start constructorContext bare.file.pool) () left := runs_bind.mpr ⟨(), _, hstmts, rfl⟩
  rw [emitMethod, runWith_eq hruns]
  exact Prod.ext (by decide +kernel) rfl

/-! The factory makes a new object. -/

def factoryContext : MethodContext :=
  ClassUnit.methodContext bare.name 9 directive.method [] person.name

def factoryCode : EmittedCode := ⟨[187, 0, 2, 89, 183, 0, 12, 176], 2, 0, []⟩

/-- The emitter behind the object and its copy. -/
def allocated : Emitter where
  pool := bare.file.pool
  code := #[⟨Opcode.new, .short 2⟩, .simple Opcode.dup]
  pc := 4
  entry := []
  slots := ⟨[], [.uninitialized 0, .uninitialized 0]⟩
  maxStack := 2
  maxLocals := 0
  nextLocal := 0

/-- The emitter behind the call of the constructor. -/
def created : Emitter :=
  { allocated with
    code := allocated.code.push ⟨Opcode.invokespecial, .short 12⟩
    pc := 7
    slots := ⟨[], [.object 2]⟩ }

/-- The emitter behind the factory. -/
def returned : Emitter :=
  { created with
    code := created.code.push (.simple 176)
    pc := 8
    slots := ⟨[], []⟩
    reachable := false }

theorem runs_new : Runs (expr .value (.new bare.name [] [])) factoryContext
    (Emit.start factoryContext bare.file.pool) () created := by
  have hnew : Runs (newObject bare.name) factoryContext
      (Emit.start factoryContext bare.file.pool) (2, .uninitialized 0) allocated := by
    rw [newObject, runs_get_bind, runs_addConstants_of_holds holds_class]
    exact rfl
  have hcall : Runs (callConstructor bare.name []) factoryContext allocated ()
      { created with slots := ⟨[], [.uninitialized 0]⟩ } := by
    rw [callConstructor, constructorRef, methodRef]
    exact (runs_addConstants_of_holds holds_constructor).mpr rfl
  rw [expr]
  exact runs_bind.mpr ⟨_, _, hnew, runs_bind.mpr ⟨(), _, rfl, runs_bind.mpr ⟨(), _, rfl,
    runs_bind.mpr ⟨(), _, hcall, rfl⟩⟩⟩⟩

theorem emitMethod_factory :
    emitMethod factoryContext (Action.makeInstance bare.name []) bare.file.pool =
      (.ok factoryCode, bare.file.pool) := by
  have hstmt : Runs (stmt (.ret (some (.new bare.name [] [])))) factoryContext
      (Emit.start factoryContext bare.file.pool) () returned := by
    rw [stmt, runs_read_bind]
    exact runs_bind.mpr ⟨(), _, runs_new, rfl⟩
  have hstmts : Runs (stmts [.ret (some (.new bare.name [] []))]) factoryContext
      (Emit.start factoryContext bare.file.pool) () returned := by
    rw [stmts]
    exact runs_bind.mpr ⟨(), _, rfl, runs_bind.mpr ⟨(), _, hstmt, rfl⟩⟩
  have hruns : Runs (do stmts (Action.makeInstance bare.name []); endMethod) factoryContext
      (Emit.start factoryContext bare.file.pool) () returned :=
    runs_bind.mpr ⟨(), _, hstmts, rfl⟩
  rw [emitMethod, runWith_eq hruns]
  exact Prod.ext (by decide +kernel) rfl

/-! The methods are added. -/

def constructorInfo : MemberInfo where
  flags := 1
  name := 7
  descriptor := 8
  attributes := [⟨9, (⟨1, 1, constructorCode.code, [], []⟩ : CodeAttribute).toBytes⟩]

def factoryInfo : MemberInfo where
  flags := 9
  name := 13
  descriptor := 14
  attributes := [⟨9, (⟨2, 0, factoryCode.code, [], []⟩ : CodeAttribute).toBytes⟩]

def withConstructor : ClassUnit :=
  { bare with file := { bare.file with methods := [constructorInfo] } }

def withFactory : ClassUnit :=
  { bare with file := { bare.file with methods := [constructorInfo, factoryInfo] } }

theorem addMethod_constructor :
    bare.runEdit (ClassUnit.addMethod 1 constructorName [] .void (plan.body bare.name .object)) =
      (.ok (), withConstructor) := by
  have hnew : bare.hasMethod constructorName (methodDescriptor [] .void) = false := rfl
  have hadd := ClassUnit.run_addMethod hnew emitMethod_constructor (by rfl)
    (holds_constant 6 rfl) (holds_constant 7 rfl) (holds_constant 8 rfl)
  exact hadd

theorem bindFactory_eq :
    withConstructor.runEdit (Action.bindFactory ⟨directive, person.name, []⟩ bare.name bare.name) =
      (.ok true, withFactory) := by
  have hnew : withConstructor.hasMethod directive.method (methodDescriptor [] person.name) =
      false := by decide +kernel
  have hadd := ClassUnit.run_addMethod hnew emitMethod_factory (by rfl)
    (holds_constant 12 rfl) (holds_constant 13 rfl) (holds_constant 8 rfl)
  have hmethod : withConstructor.method? directive.method (methodDescriptor [] person.name) =
      .ok none := rfl
  have hcompiled : withConstructor.ensureCompiled = .ok () := rfl
  unfold Action.bindFactory
  rw [ClassUnit.runEdit, run_get_bind, hcompiled]
  refine (run_bind_of_ok (run_lift _)).trans ?_
  dsimp only
  rw [hmethod]
  refine (run_bind_of_ok (run_lift _)).trans ?_
  exact (run_bind_of_ok hadd).trans rfl

theorem run_addFactory {s : Session} (h : s.currentClass? = some withConstructor) :
    (Action.addFactory ⟨directive, person.name, []⟩).run.run s =
      (.ok (), { s with currentClass? := some withFactory }) := by
  have hedit : (editClass (Action.bindFactory ⟨directive, person.name, []⟩ bare.name
      bare.name)).run.run s = (.ok true, { s with currentClass? := some withFactory }) := by
    rw [run_editClass h, bindFactory_eq]
  have hcomplete : (directive.location.isEmpty || directive.method.isEmpty) = false := by decide
  have hlocation : TypeName.ofText directive.location = bare.name := by decide
  unfold Action.addFactory
  simp only [hcomplete, Bool.false_eq_true, if_false, hlocation]
  refine (run_bind_of_ok (run_currentClass h)).trans ?_
  rw [if_pos (by exact beq_self_eq_true bare.name), discard_eq]
  exact run_bind_of_ok hedit

theorem run_addConstructor {s : Session} (h : s.currentClass? = some bare) :
    (Action.addConstructor plan (some ⟨directive, person.name⟩)).run.run s =
      (.ok (), { s with currentClass? := some withFactory }) := by
  have hnew : bare.hasConstructor plan.signature.params = false := rfl
  have hsuper : bare.superclass? = .ok (some .object) := rfl
  rw [Action.run_addConstructor h hnew hsuper addMethod_constructor]
  exact run_addFactory rfl

theorem run_applyAll (s : Session) :
    ∃ s', queue.applyAll.run.run (s.start person bare) = (.ok (), s') ∧
      s'.currentClass? = some withFactory := by
  have hadd := run_addConstructor
    (s := { s.start person bare with
      currentAction? := some (Action.label (.constructor plan (some ⟨directive, person.name⟩))) })
    rfl
  exact ⟨_, (run_bind_of_ok ((run_bind_of_ok rfl).trans hadd)).trans rfl, rfl⟩

/-! The class is generated. -/

theorem run_attach : bare.runEdit (Handler.attach person) = (.ok (), bare) := by
  have hattach : Handler.attach person = ClassUnit.addInterface person.name := rfl
  rw [hattach, ClassUnit.runEdit, ClassUnit.addInterface,
    run_bind_of_ok (ClassUnit.run_addConstants holds_person)]
  rfl

theorem exists_result :
    ∃ r, ClassResult.ofClass withFactory.name.text withFactory.toBytes = .ok r := by
  have hwritten : (ClassResult.ofClass withFactory.name.text withFactory.toBytes).isOk = true := by
    decide +kernel
  cases hresult : ClassResult.ofClass withFactory.name.text withFactory.toBytes with
  | error e =>
    rw [hresult] at hwritten
    cases hwritten
  | ok r => exact ⟨r, rfl⟩

theorem run_generate : ∃ s', (Handler.generate person queue).run.run start = (.ok (), s') := by
  obtain ⟨p, hfind, -, -⟩ := ClassPool.run_find start.pool bare.name.text
  rw [lookup_bare] at hfind
  have hfound : (onPool (ClassPool.find bare.name.text)).run.run start =
      (.ok (some bare), { start with pool := p }) := by
    rw [run_onPool, ClassPool.run, hfind]
  have htarget : (Handler.targetClass person.targetName).run.run start =
      (.ok bare, { start with pool := p }) := by
    have hname : person.targetName = bare.name := by decide
    rw [hname]
    exact (run_bind_of_ok hfound).trans rfl
  obtain ⟨s₁, hactions, hclass⟩ := run_applyAll { start with pool := p }
  obtain ⟨r, hresult⟩ := exists_result
  have hrealize := run_realize hactions hclass rfl hresult
  refine ⟨s₁.finish withFactory r, ?_⟩
  unfold Handler.generate
  refine (run_bind_of_ok htarget).trans ?_
  rw [run_attach]
  exact (run_bind_of_ok (run_lift _)).trans hrealize

def workload : Workload := ⟨.generation true, [(person, queue)]⟩

theorem run_analyzeAll :
    (analyzeAll (Handler.standard config.fluentNaming) model.sourceTypes).run.run start =
      (.ok [workload, ⟨.nonNull, []⟩], start) := rfl

theorem isClassName_person : IsClassName person.name.text where
  letters := @of_decide_eq_true _ (List.decidableBAll _ _) rfl
  dimensions := by decide
  notVoid := by decide

theorem regular_constructor :
    (Action.constructor plan (some ⟨directive, person.name⟩)).Regular where
  params := by
    rintro _ _ ⟨⟩ t ht
    cases ht
  factory := by
    rintro p ⟨⟩
    exact ⟨fun t ht => (nomatch ht), .ofClass isClassName_person⟩
  name _ _ _ := ⟨_, _, rfl⟩

theorem regular : ∀ w ∈ [workload, ⟨.nonNull, []⟩], ∀ r ∈ w.pending, ∀ x ∈ r.2, x.Regular := by
  intro w hw r hr x hx
  obtain rfl | hw := List.mem_cons.mp hw
  · obtain rfl := List.mem_singleton.mp hr
    obtain rfl := List.mem_singleton.mp hx
    exact regular_constructor
  · obtain rfl := List.mem_singleton.mp hw
    cases hr

theorem canonical_bare : bare.Canonical :=
  List.forall_mem_nil _

end PersonFactory

open PersonFactory

/-- The class `demo.PersonImpl` gets a constructor and the factory `of`. -/
theorem factories_bound_person :
    ∃ s s' unit, Environment.session { files := PersonFactory.files } config model = .ok s ∧
      s.run (generateAll (Handler.standard config.fluentNaming)) = (.ok (), s') ∧
      s'.pool.lookup "demo.PersonImpl" = .ok (some unit) ∧
      unit.HasStatic ("of", "()Ldemo/Person;") ∧
      unit.MakesInstances ("of", "()Ldemo/Person;") ⟨"demo.PersonImpl"⟩ [] ⟨"demo.Person"⟩ := by
  obtain ⟨s', hgenerate⟩ := run_generate
  have hrun : PersonFactory.start.run (generateAll (Handler.standard config.fluentNaming)) =
      (.ok (), s') := by
    have hrealize : workload.realize.run.run PersonFactory.start = (.ok (), s') :=
      run_tryCatch_of_ok (run_bind_of_ok hgenerate)
    unfold generateAll
    rw [Session.run, run_get_bind]
    exact (run_bind_of_ok run_analyzeAll).trans ((run_bind_of_ok hrealize).trans rfl)
  have hsession : Environment.session { files := PersonFactory.files } config model = .ok PersonFactory.start := rfl
  have hfound {unit : ClassUnit}
      (h : PersonFactory.start.pool.lookup bare.name.text = .ok (some unit)) : bare = unit :=
    Option.some.inj (Except.ok.inj (lookup_bare.symm.trans h))
  obtain ⟨unit, hunit, hstatic, hmakes⟩ := factories_bound hsession run_analyzeAll hrun regular
    (by decide) (by decide) List.mem_cons_self List.mem_cons_self rfl List.mem_cons_self
    (fun unit hunit => hfound hunit ▸ rfl) (fun unit hunit => hfound hunit ▸ canonical_bare)
  exact ⟨_, s', unit, hsession, hrun, hunit, hstatic, hmakes (.inl rfl)⟩

end Environment

end ClassSynth
