import ClassSynth.Proofs.Binding.Lookups
import ClassSynth.Proofs.Pool.Counting
import ClassSynth.Proofs.Pool.Subtypes

/-!
# Lookups do not depend on the past

Queries load classes, and a query that fails may have loaded some before it failed. Nobody can tell:
two pools that answer for every name alike (`ClassPool.Agrees`) answer every query alike, and go on
to agree. The bound of a walk over a hierarchy grows with the classes that are kept, but a walk that
has visited everything does not use the rest of it.

Main result: `ClassPool.answer_after`. The answer or the failure of a query is the same after any
queries as before them.
-/

namespace ClassSynth.ClassPool

variable {α β : Type} {p p' : ClassPool}

/-! ## Pools that agree -/

/-- The pools answer alike for every name. -/
structure Agrees (p p' : ClassPool) : Prop where
  lookup : ∀ name, p.lookup name = p'.lookup name
  validate : p.validate = p'.validate

theorem Agrees.symm (h : p.Agrees p') : p'.Agrees p :=
  ⟨fun name => (h.lookup name).symm, h.validate.symm⟩

theorem Loads.agrees (h : p.Loads p') : p'.Agrees p :=
  ⟨h.lookup, h.validate⟩

instance : IsPreorder ClassPool Agrees where
  refl _ := ⟨fun _ => rfl, rfl⟩
  trans _ _ _ hab hbc :=
    ⟨fun name => (hab.lookup name).trans (hbc.lookup name), hab.validate.trans hbc.validate⟩

/-- In pools that agree, the step gives the same result, and leaves pools that agree. -/
def Blind (step : Step α) : Prop :=
  ∀ p p' : ClassPool, p.Agrees p' →
    (step.run.run p).1 = (step.run.run p').1 ∧ (step.run.run p).2.Agrees (step.run.run p').2

namespace Blind

theorem pure {a : α} : Blind (Pure.pure a) := fun _ _ h => ⟨rfl, h⟩

theorem throw {e : Error} : Blind (MonadExcept.throw e : Step α) := fun _ _ h => ⟨rfl, h⟩

theorem lift {x : Except Error α} : Blind (ClassPool.lift x) := by
  cases x with
  | ok a => exact pure
  | error e => exact throw

theorem bind {step : Step α} {f : α → Step β} (hstep : Blind step) (hf : ∀ a, Blind (f a)) :
    Blind (step >>= f) := by
  intro p p' h
  obtain ⟨hresult, hagrees⟩ := hstep p p' h
  rcases hrun : step.run.run p with ⟨result, q⟩
  rcases hrun' : step.run.run p' with ⟨result', q'⟩
  rw [hrun, hrun'] at hresult hagrees
  obtain rfl := hresult
  cases result with
  | error e =>
    rw [run_bind_of_error hrun, run_bind_of_error hrun']
    exact ⟨rfl, hagrees⟩
  | ok a =>
    rw [run_bind_of_ok hrun, run_bind_of_ok hrun']
    exact hf a q q' hagrees

theorem ite {c : Prop} [Decidable c] {step step' : Step α} (hstep : Blind step)
    (hstep' : Blind step') : Blind (if c then step else step') := by
  split_ifs
  · exact hstep
  · exact hstep'

theorem foldlM {f : β → α → Step β} (hf : ∀ b a, Blind (f b a)) (xs : List α) (b : β) :
    Blind (xs.foldlM f b) := by
  induction xs generalizing b with
  | nil => exact pure
  | cons x xs ih =>
    rw [List.foldlM_cons]
    exact (hf b x).bind ih

end Blind

/-! ## Lookups -/

theorem blind_find (name : String) : Blind (find name) := by
  intro p p' h
  obtain ⟨q, hrun, hloads, -⟩ := run_find p name
  obtain ⟨q', hrun', hloads', -⟩ := run_find p' name
  rw [hrun, hrun']
  exact ⟨h.lookup name, trans_of Agrees hloads.agrees (trans_of Agrees h hloads'.agrees.symm)⟩

/-- Whether a missing class is a failure is the same in pools that agree. -/
theorem blind_ifValidate {step step' : Step α} (hstep : Blind step) (hstep' : Blind step') :
    Blind (do if (← get).validate then step else step') := by
  intro p p' h
  rw [run_get_bind, run_get_bind, h.validate]
  exact Blind.ite hstep hstep' p p' h

/-! ## Walks -/

theorem blind_visit (w : Walk) (name : TypeName) : Blind (visit w name) := by
  refine .ite .pure ((blind_find _).bind fun found => ?_)
  cases found with
  | some unit => exact Blind.lift.bind fun _ => .pure
  | none => exact blind_ifValidate .throw .pure

theorem blind_walk (fuel : Nat) (w : Walk) : Blind (walk fuel w) := by
  induction fuel generalizing w with
  | zero => exact .pure
  | succ fuel ih => exact .ite .pure (Blind.bind (.foldlM blind_visit _ _) ih)

variable {names : List String}

/-- A walk does not use more fuel than suffices. -/
theorem run_walk_of_ends {names' : List String} {fuel fuel' : Nat} {w : Walk}
    (hnames : p.Lists names) (h : w.Ends names fuel) (hnames' : p.Lists names')
    (h' : w.Ends names' fuel') : (walk fuel w).run.run p = (walk fuel' w).run.run p := by
  induction fuel generalizing fuel' w p with
  | zero =>
    have hqueue : w.queue = [] := h.resolve_right (Nat.not_lt_zero _)
    cases fuel' with
    | zero => rfl
    | succ => rw [walk, walk, hqueue]; rfl
  | succ fuel ih =>
    cases fuel' with
    | zero =>
      have hqueue : w.queue = [] := h'.resolve_right (Nat.not_lt_zero _)
      rw [walk, walk, hqueue]; rfl
    | succ fuel' =>
      rw [walk, walk]
      cases hqueue : w.queue.isEmpty with
      | true => rfl
      | false =>
        rcases hrun : (visitLevel w).run.run p with ⟨result, q⟩
        cases result with
        | error e => exact (run_bind_of_error hrun).trans (run_bind_of_error hrun).symm
        | ok w' =>
          obtain ⟨hloads, hends⟩ := ends_visitLevel hnames hqueue h p w' q (refl_of Loads p) hrun
          obtain ⟨-, hends'⟩ := ends_visitLevel hnames' hqueue h' p w' q (refl_of Loads p) hrun
          have hrest := ih (hnames.of_loads hloads) hends (hnames'.of_loads hloads) hends'
          exact (run_bind_of_ok hrun).trans (hrest.trans (run_bind_of_ok hrun).symm)

/-! ## Queries -/

theorem blind_hierarchyOf (roots : List TypeName) : Blind (hierarchyOf roots) := by
  intro p p' h
  obtain ⟨names, hcount, hnames⟩ := p.exists_names
  obtain ⟨names', hcount', hnames'⟩ := p'.exists_names
  -- Both pools have the same names, so the bound of one also suffices for the other.
  have hnames' : p.Lists names' := fun name unit hlookup =>
    hnames' name unit (h.lookup name ▸ hlookup)
  have hfuel : (walk (p.classCount + 1) { queue := roots }).run.run p =
      (walk (p'.classCount + 1) { queue := roots }).run.run p :=
    run_walk_of_ends hnames (ends_initial hcount roots) hnames' (ends_initial hcount' roots)
  have hwalk : Blind (do return (← walk (p'.classCount + 1) { queue := roots }).found.reverse) :=
    (blind_walk _ _).bind fun _ => .pure
  have hsame : (hierarchyOf roots).run.run p =
      (do return (← walk (p'.classCount + 1) { queue := roots }).found.reverse :
        Step (List TypeName)).run.run p := by
    rw [hierarchyOf, run_get_bind]
    dsimp only
    rw [ExceptT.run_bind, StateT.run_bind, ExceptT.run_bind, StateT.run_bind, hfuel]
  rw [hsame]
  exact hwalk p p' h

/-- What consists of lookups is the same in pools that agree. -/
theorem closed_blind : Closed Blind where
  pure _ := .pure
  throw _ := .throw
  bind := .bind
  find := blind_find
  hierarchyOf := blind_hierarchyOf

/-- A question to a pool that changes no class. -/
inductive Query
  | find (name : String)
  | get (name : String)
  | hierarchyOf (roots : List TypeName)
  | supertypes (name : TypeName)
  | isSubtype (sub sup : TypeName)
  | collectMethods (roots : List TypeName) (name : String)
  | findField (owner : TypeName) (name : String)

namespace Query

/-- What a query asks for. -/
def Answer : Query → Type
  | find _ => Option ClassUnit
  | get _ => ClassUnit
  | hierarchyOf _ => List TypeName
  | supertypes _ => List TypeName
  | isSubtype _ _ => Bool
  | collectMethods _ _ => List MethodSig
  | findField _ _ => Option FieldSig

/-- The step that answers a query. -/
def step : (q : Query) → Step q.Answer
  | find name => ClassPool.find name
  | get name => getUnit name
  | hierarchyOf roots => ClassPool.hierarchyOf roots
  | supertypes name => ClassPool.supertypes name
  | isSubtype sub sup => ClassPool.isSubtype sub sup
  | collectMethods roots name => ClassPool.collectMethods roots name
  | findField owner name => ClassPool.findField owner name

/-- A query consists of lookups. -/
theorem closed_step {L : ∀ {α : Type}, Step α → Prop} (h : Closed L) (q : Query) : L q.step := by
  cases q with
  | find => exact h.find _
  | get => exact closed_getUnit h _
  | hierarchyOf => exact h.hierarchyOf _
  | supertypes => exact closed_supertypes h _
  | isSubtype => exact closed_isSubtype h _ _
  | collectMethods => exact closed_collectMethods h _ _
  | findField => exact closed_findField h _ _

theorem blind_step (q : Query) : Blind q.step :=
  q.closed_step closed_blind

theorem keeps_step (q : Query) : Keeps Loads q.step :=
  q.closed_step closed_loads

end Query

/-- The answer or the failure of a query. -/
def answer (p : ClassPool) (q : Query) : Except Error q.Answer := (p.run q.step).1

/-- The pool after queries, whether they failed or not. -/
def after (p : ClassPool) (queries : List Query) : ClassPool :=
  queries.foldl (fun p q => (p.run q.step).2) p

theorem agrees_after (p : ClassPool) (queries : List Query) : p.Agrees (p.after queries) := by
  induction queries generalizing p with
  | nil => exact refl_of Agrees p
  | cons q queries ih => exact trans_of Agrees (Loads.agrees (q.keeps_step p)).symm (ih _)

/-- **Lookups do not depend on the past.** Whatever queries a pool was asked, and whether they
failed or not, a query has the answer or the failure that it had before them. -/
theorem answer_after (p : ClassPool) (queries : List Query) (q : Query) :
    (p.after queries).answer q = p.answer q :=
  (q.blind_step p _ (p.agrees_after queries)).1.symm

end ClassSynth.ClassPool
