import ClassSynth.Generation.Run
import ClassSynth.Proofs.Kept
import ClassSynth.Proofs.Pool.Lookup
import ClassSynth.Session

/-!
# Steps on the class under construction

`Makes c step Q` says what a successful step makes of the class `c` under construction: the result
and the class after the step satisfy `Q`. Steps on the pool leave the class alone, so only its edits
have to be followed.
-/

namespace ClassSynth.Session

variable {α β : Type} {c : ClassUnit}

/-! ## Runs -/

theorem run_currentClass {s : Session} (h : s.currentClass? = some c) :
    currentClass.run.run s = (.ok c, s) := by
  unfold currentClass
  rw [run_get_bind, h]
  rfl

theorem run_currentClass_none {s : Session} (h : s.currentClass? = none) :
    ∃ e, currentClass.run.run s = (.error e, s) := by
  unfold currentClass
  rw [run_get_bind, h]
  exact ⟨_, rfl⟩

theorem of_run_currentClass {s s' : Session} (h : currentClass.run.run s = (.ok c, s')) :
    s.currentClass? = some c ∧ s' = s := by
  cases hclass : s.currentClass? with
  | none =>
    obtain ⟨e, hfail⟩ := run_currentClass_none hclass
    cases hfail.symm.trans h
  | some c' =>
    obtain ⟨hc, rfl⟩ := Prod.mk.inj ((run_currentClass hclass).symm.trans h)
    exact ⟨congrArg some (Except.ok.inj hc), rfl⟩

/-- An edit that fails leaves behind what it did to the class. -/
theorem run_editClass {s : Session} (h : s.currentClass? = some c) (step : ClassUnit.Edit α) :
    (editClass step).run.run s =
      ((c.runEdit step).1, { s with currentClass? := some (c.runEdit step).2 }) := by
  refine (run_bind_of_ok (run_currentClass h)).trans ?_
  have hset : (setClass (c.runEdit step).2).run.run s =
      (.ok (), { s with currentClass? := some (c.runEdit step).2 }) := rfl
  exact (run_bind_of_ok hset).trans (run_lift _)

/-! ## Steps that make a class -/

/-- The class under construction is the same. -/
def SameClass (s s' : Session) : Prop := s'.currentClass? = s.currentClass?

instance : IsPreorder Session SameClass where
  refl _ := rfl
  trans _ _ _ hab hbc := Eq.trans hbc hab

/-- If the step succeeds while `c` is under construction, its result and the class afterwards
satisfy `Q`. -/
def Makes (c : ClassUnit) (step : Step α) (Q : α → ClassUnit → Prop) : Prop :=
  ∀ s a s', s.currentClass? = some c → step.run.run s = (.ok a, s') →
    ∃ c', s'.currentClass? = some c' ∧ Q a c'

namespace Makes

variable {P : α → ClassUnit → Prop} {Q : β → ClassUnit → Prop}

theorem pure {a : α} (h : P a c) : Makes c (Pure.pure a) P := by
  intro s b s' hs hrun
  obtain ⟨hb, rfl⟩ := Prod.mk.inj hrun
  exact ⟨c, hs, Except.ok.inj hb ▸ h⟩

theorem throw {e : Error} : Makes c (MonadExcept.throw e) P :=
  fun _ _ _ _ hrun => absurd hrun not_run_throw_ok

theorem bind {step : Step α} {f : α → Step β} (hstep : Makes c step P)
    (hf : ∀ a c', P a c' → Makes c' (f a) Q) : Makes c (step >>= f) Q := by
  intro s b s' hs hrun
  obtain ⟨a, s₁, ha, hb⟩ := of_run_bind_ok hrun
  obtain ⟨c₁, hs₁, hP⟩ := hstep s a s₁ hs ha
  exact hf a c₁ hP s₁ b s' hs₁ hb

theorem ite {p : Prop} [Decidable p] {step step' : Step α} (hstep : p → Makes c step P)
    (hstep' : ¬ p → Makes c step' P) : Makes c (if p then step else step') P := by
  split_ifs with hp
  · exact hstep hp
  · exact hstep' hp

theorem mono {P' : α → ClassUnit → Prop} {step : Step α} (hstep : Makes c step P)
    (h : ∀ a c', P a c' → P' a c') : Makes c step P' := by
  intro s a s' hs hrun
  obtain ⟨c', hs', hP⟩ := hstep s a s' hs hrun
  exact ⟨c', hs', h a c' hP⟩

/-- A step that leaves the class alone. -/
theorem of_keeps {step : Step α} (hkeeps : Keeps SameClass step) {R : α → Prop}
    (hensures : Ensures step R) : Makes c step fun a c' => c' = c ∧ R a :=
  fun s a s' hs hrun => ⟨c, (hkeeps.of_run hrun).trans hs, rfl, hensures s a s' hrun⟩

/-- What leaves the class alone is followed by the rest. -/
theorem after {step : Step α} {f : α → Step β} {R : α → Prop}
    (hstep : Makes c step fun a c' => c' = c ∧ R a) (hf : ∀ a, R a → Makes c (f a) Q) :
    Makes c (step >>= f) Q :=
  hstep.bind fun a _ h => h.1 ▸ hf a h.2

theorem currentClass_bind {f : ClassUnit → Step β} (hf : Makes c (f c) Q) :
    Makes c (currentClass >>= f) Q := by
  intro s b s' hs hrun
  rw [run_bind_of_ok (run_currentClass hs)] at hrun
  exact hf s b s' hs hrun

end Makes

/-! ## Parts of steps -/

theorem keeps_onPool (step : ClassPool.Step α) : Keeps SameClass (onPool step) :=
  Keeps.bind (Keeps.modifyGet fun _ => rfl) fun _ => Keeps.lift

theorem keeps_currentClass : Keeps SameClass currentClass := by
  refine Keeps.get.bind fun s => ?_
  cases s.currentClass? with
  | none => exact .throw
  | some c => exact .pure

theorem keeps_currentIsSubtype (t : TypeName) : Keeps SameClass (currentIsSubtype t) :=
  keeps_currentClass.bind fun _ => .ite .pure
    (Keeps.lift.bind fun _ => Keeps.lift.bind fun _ => .anyM (fun _ => keeps_onPool _) _)

theorem keeps_publish (unit : ClassUnit) : Keeps SameClass (publish unit) :=
  Keeps.lift.bind fun _ => .modified fun _ => rfl

theorem ensures_onPool {step : ClassPool.Step α} {P : α → Prop} (h : Ensures step P) :
    Ensures (onPool step) P := by
  intro s a s' hrun
  obtain ⟨result, s₁, hresult, hlift⟩ := of_run_bind_ok hrun
  obtain ⟨hresult, -⟩ := Prod.mk.inj hresult
  obtain rfl := Except.ok.inj hresult
  obtain ⟨ha, -⟩ := of_run_lift_ok hlift
  exact h s.pool a _ (Prod.ext ha rfl)

theorem discard_eq (step : Step α) :
    discard step = step >>= fun _ => (Pure.pure PUnit.unit : Step PUnit) := by
  rw [Functor.discard, map_const, Function.comp_apply, bind_pure_comp]

/-- Whatever the pool answers, the class under construction stays. -/
theorem makes_onPool {step : ClassPool.Step α} {P : α → Prop} (h : Ensures step P) :
    Makes c (onPool step) fun a c' => c' = c ∧ P a :=
  .of_keeps (keeps_onPool step) (ensures_onPool h)

theorem makes_lift {r : Except Error α} : Makes c (lift r) fun a c' => c' = c ∧ r = .ok a :=
  .of_keeps Keeps.lift (.lift fun _ h => h)

theorem makes_scope (params : List TypeName) :
    Makes c (scope params) fun s c' =>
      c' = c ∧ s = { thisClass := c.name, current := some c, params } :=
  .currentClass_bind (.pure ⟨rfl, rfl⟩)

theorem makes_editClass (step : ClassUnit.Edit α) :
    Makes c (editClass step) fun a c' => c.runEdit step = (.ok a, c') := by
  intro s a s' hs hrun
  rw [run_editClass hs] at hrun
  obtain ⟨ha, rfl⟩ := Prod.mk.inj hrun
  exact ⟨_, rfl, Prod.ext ha rfl⟩

end ClassSynth.Session

namespace ClassSynth

/-! ## Sessions that load classes

Planning looks declarations up and changes nothing else: the pool loads classes, and answers as
before (`Session.Loads`). So the declaration of a type is a function of the session at the start
(`Session.declaration?`).
-/

/-- A run starts with its model, without classes and results. -/
theorem Environment.of_session {e : Environment} {c : Config} {m : TypeModel} {s : Session}
    (h : e.session c m = .ok s) : s.model = m ∧ s.pool.cache = ∅ ∧ s.results = [] := by
  obtain ⟨p, hpool, hs⟩ := Checked.bind_eq_ok.mp h
  obtain ⟨major, -, hp⟩ := Checked.bind_eq_ok.mp hpool
  obtain rfl := Except.ok.inj hs
  obtain rfl := Except.ok.inj hp
  exact ⟨rfl, rfl, rfl⟩

namespace Session

variable {α : Type} {s s' : Session}

/-- The later session differs in the classes that its pool has loaded. -/
def Loads (s s' : Session) : Prop := s.pool.Loads s'.pool ∧ s' = { s with pool := s'.pool }

instance : IsPreorder Session Loads where
  refl s := ⟨refl_of ClassPool.Loads s.pool, rfl⟩
  trans _ _ _ hab hbc :=
    ⟨trans_of ClassPool.Loads hab.1 hbc.1, hbc.2.trans (by rw [hab.2])⟩

theorem Loads.model (h : Loads s s') : s'.model = s.model := by rw [h.2]

theorem Loads.results (h : Loads s s') : s'.results = s.results := by rw [h.2]

/-- A step on the pool changes the pool and nothing else. -/
theorem run_onPool (s : Session) (step : ClassPool.Step α) :
    (onPool step).run.run s = ((s.pool.run step).1, { s with pool := (s.pool.run step).2 }) := by
  have hmodify : (modifyGet fun s : Session =>
      ((s.pool.run step).1, { s with pool := (s.pool.run step).2 }) :
        Step (Except Error α)).run.run s =
        (.ok (s.pool.run step).1, { s with pool := (s.pool.run step).2 }) := rfl
  exact (run_bind_of_ok hmodify).trans (run_lift _)

theorem loads_onPool {step : ClassPool.Step α} (h : Keeps ClassPool.Loads step) :
    Keeps Loads (onPool step) := by
  intro s
  rw [run_onPool]
  exact ⟨h s.pool, rfl⟩

/-! ### Declarations -/

/-- The declaration of a type, or why it cannot be found. -/
def declared (s : Session) (t : TypeName) : Except Error (Option TypeDeclaration) :=
  match s.model.get? t.text with
  | some d => .ok (some d)
  | none => do
    match ← s.pool.lookup t.text with
    | some unit => return some (← liftFormat (TypeDeclaration.ofClassFile unit.file))
    | none => return none

theorem Loads.declared (h : Loads s s') (t : TypeName) : s'.declared t = s.declared t := by
  rw [Session.declared, Session.declared, h.model, h.1.lookup]

theorem run_declarationOf (s : Session) (t : TypeName) :
    ∃ s', (declarationOf t).run.run s = (s.declared t, s') ∧ Loads s s' := by
  unfold declarationOf
  rw [run_get_bind, declared]
  cases hmodel : s.model.get? t.text with
  | some d => exact ⟨s, rfl, refl_of Loads s⟩
  | none =>
    obtain ⟨p', hrun, hloads, -⟩ := ClassPool.run_find s.pool t.text
    have hpool : s.pool.run (ClassPool.find t.text) = (s.pool.lookup t.text, p') := hrun
    have hfind := run_onPool s (ClassPool.find t.text)
    rw [hpool] at hfind
    refine ⟨{ s with pool := p' }, ?_, hloads, rfl⟩
    cases hlookup : s.pool.lookup t.text with
    | error e => exact run_bind_of_error (hlookup ▸ hfind)
    | ok unit =>
      refine (run_bind_of_ok (hlookup ▸ hfind)).trans ?_
      cases unit with
      | none => rfl
      | some unit =>
        rw [Option.mapM_some]
        change _ = (liftFormat (TypeDeclaration.ofClassFile unit.file) >>= fun d => _, _)
        cases liftFormat (TypeDeclaration.ofClassFile unit.file) <;> rfl

theorem loads_declarationOf (t : TypeName) : Keeps Loads (declarationOf t) := by
  intro s
  obtain ⟨s', hrun, hloads⟩ := run_declarationOf s t
  exact hrun ▸ hloads

/-- The declaration of a type, if it can be found. -/
def declaration? (s : Session) (t : TypeName) : Option TypeDeclaration :=
  (s.run (declarationOf t)).1.toOption.join

theorem declaration?_eq (s : Session) (t : TypeName) :
    s.declaration? t = (s.declared t).toOption.join := by
  obtain ⟨s', hrun, -⟩ := run_declarationOf s t
  rw [declaration?, Session.run, hrun]

/-- However many classes were loaded since, the declaration is that of the start. -/
theorem within_declarationOf (s : Session) (t : TypeName) :
    Within (Loads s) (declarationOf t) fun found => s.declaration? t = found := by
  intro s₁ found s₂ hs₁ hrun
  obtain ⟨s', hrun', hloads⟩ := run_declarationOf s₁ t
  obtain ⟨hfound, rfl⟩ := Prod.mk.inj (hrun'.symm.trans hrun)
  refine ⟨trans_of Loads hs₁ hloads, ?_⟩
  rw [declaration?_eq, ← hs₁.declared, hfound]
  rfl

theorem declared_of_declaration? {t : TypeName} {d : TypeDeclaration}
    (h : s.declaration? t = some d) : s.declared t = .ok (some d) := by
  rw [declaration?_eq] at h
  cases hdeclared : s.declared t with
  | error e =>
    rw [hdeclared] at h
    cases h
  | ok found =>
    rw [hdeclared] at h
    exact congrArg Except.ok h

theorem qualifiedName_of_ofClassFile {file : ClassFile} {d : TypeDeclaration}
    (h : TypeDeclaration.ofClassFile file = .ok d) :
    file.thisName.map TypeName.ofInternal = .ok ⟨d.qualifiedName⟩ := by
  obtain ⟨name, hname, h⟩ := Checked.bind_eq_ok.mp h
  obtain ⟨superName, -, h⟩ := Checked.bind_eq_ok.mp h
  obtain ⟨interfaces, -, h⟩ := Checked.bind_eq_ok.mp h
  obtain ⟨members, -, h⟩ := Checked.bind_eq_ok.mp h
  obtain rfl := Except.ok.inj h
  rw [hname]
  rfl

/-- A declaration has the name that it is looked up with. -/
theorem qualifiedName_of_declaration? (hfiles : s.pool.NamesFiles) {t : TypeName}
    {d : TypeDeclaration} (h : s.declaration? t = some d) : d.qualifiedName = t.text := by
  have hdeclared := declared_of_declaration? h
  unfold declared at hdeclared
  split at hdeclared
  · next found hmodel =>
    obtain rfl : found = d := Option.some.inj (Except.ok.inj hdeclared)
    have hmodel : s.model.types.find? (fun d => d.qualifiedName == t.text) = some found := hmodel
    simpa using List.find?_some hmodel
  · obtain ⟨unit, hlookup, hunit⟩ := Checked.bind_eq_ok.mp hdeclared
    cases unit with
    | none => cases hunit
    | some unit =>
      obtain ⟨found, hfound, hd⟩ := Checked.bind_eq_ok.mp hunit
      obtain rfl : found = d := Option.some.inj (Except.ok.inj hd)
      have hfile := qualifiedName_of_ofClassFile (Checked.mapError_eq_ok.mp hfound)
      have hname := (hfiles t.text unit hlookup).symm.trans hfile
      exact (congrArg TypeName.text (Except.ok.inj hname)).symm

/-! ### Plans -/

theorem loads_queueSupertype (w : Survey) (t : TypeName) : Keeps Loads (w.queueSupertype t) := by
  refine (loads_declarationOf t).bind fun found => ?_
  cases found with
  | some d => exact .pure
  | none => exact Keeps.get.bind fun _ => .ite .throw .pure

theorem loads_walk (fluent : Bool) (fuel : Nat) (w : Survey) :
    Keeps Loads (Survey.walk fluent fuel w) := by
  induction fuel generalizing w with
  | zero => exact .pure
  | succ fuel ih =>
    unfold Survey.walk
    split
    · exact .pure
    · refine Keeps.bind (.ite .pure ?_) ih
      exact .foldlM loads_queueSupertype _ _

theorem loads_plan (d : TypeDeclaration) (fluent : Bool) : Keeps Loads (d.plan fluent) := by
  have hwalk : Keeps Loads (Analysis.ofType fluent d) :=
    Keeps.get.bind fun _ => (loads_walk _ _ _).bind fun _ => .pure
  exact hwalk.bind fun _ => .pure

end Session

end ClassSynth
