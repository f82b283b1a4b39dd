import Mathlib.Order.Defs.Unbundled
import Mathlib.Tactic.SplitIfs

/-!
# What failing steps keep

A step over a state may fail half way, and what it did until then stays. `Keeps R step` says that
the state after the step, whether it failed or not, stands in the relation `R` to the state before.
Steps are composed of steps that keep `R`, if `R` is a preorder. `FailsWithin R step` says so of the
failures of the step only: its last part may do more, if it does not fail. `Ensures step P` says
that the results of the step have the property `P`, `Within I step P` that they have it under the
invariant `I` of the states, and `Decides I step P reason` also why the step fails, if it does.
-/

namespace ClassSynth

variable {ε σ α β : Type}

/-- Whether the step fails or not, the state afterwards is related to the state before. -/
def Keeps (R : σ → σ → Prop) (step : ExceptT ε (StateM σ) α) : Prop :=
  ∀ s, R s (step.run.run s).2

/-- If the step fails, the state afterwards is related to the state before. -/
def FailsWithin (R : σ → σ → Prop) (step : ExceptT ε (StateM σ) α) : Prop :=
  ∀ s e s', step.run.run s = (.error e, s') → R s s'

/-! ## Runs of composed steps -/

section Runs

variable {step : ExceptT ε (StateM σ) α} {f : α → ExceptT ε (StateM σ) β} {s s₁ s' : σ}

theorem run_bind_of_ok {a : α} (h : step.run.run s = (.ok a, s₁)) :
    (step >>= f).run.run s = (f a).run.run s₁ := by
  rw [ExceptT.run_bind, StateT.run_bind, h]
  rfl

theorem run_bind_of_error {e : ε} (h : step.run.run s = (.error e, s₁)) :
    (step >>= f).run.run s = (.error e, s₁) := by
  rw [ExceptT.run_bind, StateT.run_bind, h]
  rfl

theorem run_tryCatch {handle : ε → ExceptT ε (StateM σ) α} :
    (tryCatch step handle).run.run s =
      match step.run.run s with
      | (.ok a, s') => (.ok a, s')
      | (.error e, s') => (handle e).run.run s' := by
  change (match (step.run.run s).1 with
    | .ok a => Pure.pure (.ok a)
    | .error e => handle e : StateM σ (Except ε α)).run (step.run.run s).2 = _
  rcases step.run.run s with ⟨_ | _, _⟩ <;> rfl

theorem run_tryCatch_of_ok {a : α} {handle : ε → ExceptT ε (StateM σ) α}
    (h : step.run.run s = (.ok a, s₁)) : (tryCatch step handle).run.run s = (.ok a, s₁) := by
  rw [run_tryCatch, h]

theorem run_get_bind {f : σ → ExceptT ε (StateM σ) β} :
    (MonadState.get >>= f).run.run s = (f s).run.run s := rfl

/-- A result that is known without the state leaves the state as it is. -/
theorem run_lift (x : Except ε α) : (liftM x : ExceptT ε (StateM σ) α).run.run s = (x, s) := by
  cases x <;> rfl

/-- A composed step that succeeds is composed of steps that succeed. -/
theorem of_run_bind_ok {b : β} (h : (step >>= f).run.run s = (.ok b, s')) :
    ∃ a s₁, step.run.run s = (.ok a, s₁) ∧ (f a).run.run s₁ = (.ok b, s') := by
  rcases hrun : step.run.run s with ⟨result, s₁⟩
  cases result with
  | error e =>
    rw [run_bind_of_error hrun] at h
    cases h
  | ok a => exact ⟨a, s₁, rfl, run_bind_of_ok hrun ▸ h⟩

theorem of_run_get_ok {a : σ}
    (h : (MonadState.get : ExceptT ε (StateM σ) σ).run.run s = (.ok a, s')) : s = a ∧ s = s' :=
  ⟨Except.ok.inj (Prod.mk.inj h).1, (Prod.mk.inj h).2⟩

theorem of_run_modify_ok {g : σ → σ} {u : PUnit}
    (h : (modify g : ExceptT ε (StateM σ) PUnit).run.run s = (.ok u, s')) : s' = g s :=
  (Prod.mk.inj h).2.symm

theorem not_run_throw_ok {e : ε} {a : α} :
    (MonadExcept.throw e : ExceptT ε (StateM σ) α).run.run s ≠ (.ok a, s') :=
  fun h => nomatch (Prod.mk.inj h).1

theorem of_run_lift_ok {x : Except ε α} {a : α}
    (h : (liftM x : ExceptT ε (StateM σ) α).run.run s = (.ok a, s')) : x = .ok a ∧ s = s' :=
  Prod.mk.inj ((run_lift x).symm.trans h)

/-- A step that is refused for a reason succeeds only where the reason is not given. -/
theorem of_run_guard_ok {p : Prop} [Decidable p] {refuse : ExceptT ε (StateM σ) PUnit} {a : α}
    (hrefuse : ∀ s u s', refuse.run.run s ≠ (.ok u, s'))
    (h : (if p then do refuse; step else step).run.run s = (.ok a, s')) :
    ¬ p ∧ step.run.run s = (.ok a, s') := by
  split_ifs at h with hp
  · obtain ⟨_, _, hfirst, _⟩ := of_run_bind_ok h
    exact absurd hfirst (hrefuse _ _ _)
  · exact ⟨hp, h⟩

end Runs

namespace Keeps

variable {R : σ → σ → Prop} [IsPreorder σ R]

theorem pure {a : α} : Keeps R (Pure.pure a : ExceptT ε (StateM σ) α) :=
  fun s => refl_of R s

theorem throw {e : ε} : Keeps R (MonadExcept.throw e : ExceptT ε (StateM σ) α) :=
  fun s => refl_of R s

theorem get : Keeps R (MonadState.get : ExceptT ε (StateM σ) σ) :=
  fun s => refl_of R s

theorem bind {step : ExceptT ε (StateM σ) α} {f : α → ExceptT ε (StateM σ) β}
    (hstep : Keeps R step) (hf : ∀ a, Keeps R (f a)) : Keeps R (step >>= f) := by
  intro s
  have hfirst := hstep s
  rcases hrun : step.run.run s with ⟨result, s'⟩
  rw [hrun] at hfirst
  cases result with
  | error e => rwa [run_bind_of_error hrun]
  | ok a =>
    rw [run_bind_of_ok hrun]
    exact trans_of R hfirst (hf a s')

omit [IsPreorder σ R] in
theorem mono {R' : σ → σ → Prop} {step : ExceptT ε (StateM σ) α} (hstep : Keeps R step)
    (h : ∀ s s', R s s' → R' s s') : Keeps R' step :=
  fun s => h s _ (hstep s)

omit [IsPreorder σ R] in
theorem modifyGet {f : σ → α × σ} (h : ∀ s, R s (f s).2) :
    Keeps R (MonadState.modifyGet f : ExceptT ε (StateM σ) α) :=
  h

omit [IsPreorder σ R] in
theorem modified {f : σ → σ} (h : ∀ s, R s (f s)) :
    Keeps R (modify f : ExceptT ε (StateM σ) PUnit) :=
  h

/-- A result that is known without the state. -/
theorem lift {x : Except ε α} : Keeps R (liftM x : ExceptT ε (StateM σ) α) := by
  cases x with
  | error e => exact throw
  | ok a => exact pure

omit [IsPreorder σ R] in
theorem ite {p : Prop} [Decidable p] {step step' : ExceptT ε (StateM σ) α}
    (hstep : Keeps R step) (hstep' : Keeps R step') : Keeps R (if p then step else step') := by
  split_ifs
  · exact hstep
  · exact hstep'

omit [IsPreorder σ R] in
theorem of_run {step : ExceptT ε (StateM σ) α} (h : Keeps R step) {s s' : σ} {result : Except ε α}
    (hrun : step.run.run s = (result, s')) : R s s' := by
  have hs := h s
  rwa [hrun] at hs

/-! ### Lists of steps -/

theorem foldlM {f : β → α → ExceptT ε (StateM σ) β} (hf : ∀ b a, Keeps R (f b a)) (xs : List α)
    (b : β) : Keeps R (xs.foldlM f b) := by
  induction xs generalizing b with
  | nil => exact pure
  | cons x xs ih =>
    rw [List.foldlM_cons]
    exact (hf b x).bind ih

theorem mapM {f : α → ExceptT ε (StateM σ) β} (hf : ∀ a, Keeps R (f a)) (xs : List α) :
    Keeps R (xs.mapM f) := by
  induction xs with
  | nil =>
    rw [List.mapM_nil]
    exact pure
  | cons x xs ih =>
    rw [List.mapM_cons]
    exact (hf x).bind fun _ => ih.bind fun _ => pure

theorem anyM {f : α → ExceptT ε (StateM σ) Bool} (hf : ∀ a, Keeps R (f a)) (xs : List α) :
    Keeps R (xs.anyM f) := by
  induction xs with
  | nil => exact pure
  | cons x xs ih =>
    rw [List.anyM]
    refine (hf x).bind fun found => ?_
    cases found with
    | true => exact pure
    | false => exact ih

/-! ### Failures -/

/-- A failure lies in the first step or in the second. -/
theorem bind_failsWithin {step : ExceptT ε (StateM σ) α} {f : α → ExceptT ε (StateM σ) β}
    (hstep : Keeps R step) (hf : ∀ a, FailsWithin R (f a)) : FailsWithin R (step >>= f) := by
  intro s e s' h
  rcases hrun : step.run.run s with ⟨result, s₁⟩
  cases result with
  | error e' =>
    rw [run_bind_of_error hrun] at h
    obtain ⟨-, rfl⟩ := Prod.mk.inj h
    exact hstep.of_run hrun
  | ok a =>
    rw [run_bind_of_ok hrun] at h
    exact trans_of R (hstep.of_run hrun) (hf a s₁ e s' h)

end Keeps

namespace FailsWithin

variable {R : σ → σ → Prop}

theorem modified {f : σ → σ} : FailsWithin R (modify f : ExceptT ε (StateM σ) PUnit) := by
  intro s e s' h
  cases h

theorem guard [IsPreorder σ R] {p : Prop} [Decidable p] {refuse : ExceptT ε (StateM σ) PUnit}
    {step : ExceptT ε (StateM σ) α} (hrefuse : Keeps R refuse) (hstep : FailsWithin R step) :
    FailsWithin R (if p then do refuse; step else step) := by
  split_ifs
  · exact hrefuse.bind_failsWithin fun _ => hstep
  · exact hstep

end FailsWithin

/-! ## Results -/

/-- Every result of the step has the property, in whatever state the step runs. -/
def Ensures (step : ExceptT ε (StateM σ) α) (P : α → Prop) : Prop :=
  ∀ s a s', step.run.run s = (.ok a, s') → P a

namespace Ensures

variable {P : α → Prop} {Q : β → Prop}

theorem pure {a : α} (h : P a) : Ensures (Pure.pure a : ExceptT ε (StateM σ) α) P := by
  rintro s b s' hrun
  obtain rfl := Except.ok.inj (Prod.mk.inj hrun).1
  exact h

theorem throw {e : ε} : Ensures (MonadExcept.throw e : ExceptT ε (StateM σ) α) P :=
  fun _ _ _ hrun => absurd hrun not_run_throw_ok

theorem bind {step : ExceptT ε (StateM σ) α} {f : α → ExceptT ε (StateM σ) β}
    (hstep : Ensures step P) (hf : ∀ a, P a → Ensures (f a) Q) : Ensures (step >>= f) Q := by
  intro s b s' hrun
  obtain ⟨a, s₁, ha, hb⟩ := of_run_bind_ok hrun
  exact hf a (hstep s a s₁ ha) s₁ b s' hb

theorem mono {P' : α → Prop} {step : ExceptT ε (StateM σ) α} (hstep : Ensures step P)
    (h : ∀ a, P a → P' a) : Ensures step P' :=
  fun s a s' hrun => h a (hstep s a s' hrun)

/-- Nothing is demanded of the result. -/
theorem trivial {step : ExceptT ε (StateM σ) α} : Ensures step fun _ => True :=
  fun _ _ _ _ => True.intro

/-- A result that is known without the state. -/
theorem lift {x : Except ε α} (h : ∀ a, x = .ok a → P a) :
    Ensures (liftM x : ExceptT ε (StateM σ) α) P :=
  fun _ a _ hrun => h a (of_run_lift_ok hrun).1

theorem ite {p : Prop} [Decidable p] {step step' : ExceptT ε (StateM σ) α}
    (hstep : p → Ensures step P) (hstep' : ¬ p → Ensures step' P) :
    Ensures (if p then step else step') P := by
  split_ifs with hp
  · exact hstep hp
  · exact hstep' hp

/-- What holds of the start of a fold, and is kept by each of its steps, holds of its result. -/
theorem foldlM {f : β → α → ExceptT ε (StateM σ) β} (hf : ∀ b a, Q b → Ensures (f b a) Q)
    (xs : List α) {b : β} (hb : Q b) : Ensures (xs.foldlM f b) Q := by
  induction xs generalizing b with
  | nil => exact pure hb
  | cons x xs ih =>
    rw [List.foldlM_cons]
    exact (hf b x hb).bind fun _ => ih

theorem mapM {f : α → ExceptT ε (StateM σ) β} (hf : ∀ a, Ensures (f a) Q) (xs : List α) :
    Ensures (xs.mapM f) fun ys => ∀ y ∈ ys, Q y := by
  induction xs with
  | nil =>
    rw [List.mapM_nil]
    exact pure fun y hy => absurd hy List.not_mem_nil
  | cons x xs ih =>
    rw [List.mapM_cons]
    exact (hf x).bind fun y hy => ih.bind fun ys hys => pure (List.forall_mem_cons.mpr ⟨hy, hys⟩)

end Ensures

/-! ## Results under an invariant -/

/-- From a state that satisfies the invariant, a step that succeeds leads to such a state again, and
its result has the property. -/
def Within (I : σ → Prop) (step : ExceptT ε (StateM σ) α) (P : α → Prop) : Prop :=
  ∀ s a s', I s → step.run.run s = (.ok a, s') → I s' ∧ P a

namespace Within

variable {I : σ → Prop} {P : α → Prop} {Q : β → Prop}

theorem pure {a : α} (h : P a) : Within I (Pure.pure a : ExceptT ε (StateM σ) α) P := by
  rintro s b s' hs hrun
  obtain ⟨hb, rfl⟩ := Prod.mk.inj hrun
  exact ⟨hs, Except.ok.inj hb ▸ h⟩

theorem throw {e : ε} : Within I (MonadExcept.throw e : ExceptT ε (StateM σ) α) P :=
  fun _ _ _ _ hrun => absurd hrun not_run_throw_ok

/-- A result that is known without the state. -/
theorem lift {x : Except ε α} (h : ∀ a, x = .ok a → P a) :
    Within I (liftM x : ExceptT ε (StateM σ) α) P := by
  intro s a s' hs hrun
  obtain ⟨ha, rfl⟩ := of_run_lift_ok hrun
  exact ⟨hs, h a ha⟩

theorem get : Within I (MonadState.get : ExceptT ε (StateM σ) σ) I := by
  intro s a s' hs hrun
  obtain ⟨rfl, rfl⟩ := of_run_get_ok hrun
  exact ⟨hs, hs⟩

theorem bind {step : ExceptT ε (StateM σ) α} {f : α → ExceptT ε (StateM σ) β}
    (hstep : Within I step P) (hf : ∀ a, P a → Within I (f a) Q) : Within I (step >>= f) Q := by
  intro s b s' hs hrun
  obtain ⟨a, s₁, ha, hb⟩ := of_run_bind_ok hrun
  obtain ⟨hs₁, hP⟩ := hstep s a s₁ hs ha
  exact hf a hP s₁ b s' hs₁ hb

theorem mono {P' : α → Prop} {step : ExceptT ε (StateM σ) α} (hstep : Within I step P)
    (h : ∀ a, P a → P' a) : Within I step P' := by
  intro s a s' hs hrun
  obtain ⟨hs', hP⟩ := hstep s a s' hs hrun
  exact ⟨hs', h a hP⟩

theorem ite {p : Prop} [Decidable p] {step step' : ExceptT ε (StateM σ) α}
    (hstep : p → Within I step P) (hstep' : ¬ p → Within I step' P) :
    Within I (if p then step else step') P := by
  split_ifs with hp
  · exact hstep hp
  · exact hstep' hp

/-- A fold over a list, with what holds behind each part of it. -/
theorem foldlM {f : β → α → ExceptT ε (StateM σ) β} {R : List α → β → Prop} {xs : List α}
    (hf : ∀ done b a, a ∈ xs → R done b → Within I (f b a) (R (done ++ [a])))
    (done : List α) {b : β} (hb : R done b) : Within I (xs.foldlM f b) (R (done ++ xs)) := by
  induction xs generalizing b done with
  | nil =>
    rw [List.append_nil]
    exact pure hb
  | cons x xs ih =>
    rw [List.foldlM_cons, List.append_cons]
    exact (hf done b x List.mem_cons_self hb).bind fun _ =>
      ih (fun done b a ha => hf done b a (List.mem_cons_of_mem _ ha)) (done ++ [x])

theorem mapM {f : α → ExceptT ε (StateM σ) β} {xs : List α} (hf : ∀ a ∈ xs, Within I (f a) Q) :
    Within I (xs.mapM f) fun ys => ∀ y ∈ ys, Q y := by
  induction xs with
  | nil =>
    rw [List.mapM_nil]
    exact pure fun y hy => absurd hy List.not_mem_nil
  | cons x xs ih =>
    rw [List.mapM_cons]
    refine (hf x List.mem_cons_self).bind fun y hy => ?_
    refine (ih fun a ha => hf a (List.mem_cons_of_mem _ ha)).bind fun ys hys => ?_
    exact pure (List.forall_mem_cons.mpr ⟨hy, hys⟩)

theorem forM {f : α → ExceptT ε (StateM σ) PUnit} {xs : List α}
    (hf : ∀ a ∈ xs, Within I (f a) fun _ => True) : Within I (xs.forM f) fun _ => True := by
  induction xs with
  | nil => exact pure trivial
  | cons x xs ih =>
    exact (hf x List.mem_cons_self).bind fun _ _ =>
      ih fun a ha => hf a (List.mem_cons_of_mem _ ha)

/-- A step that keeps a relation keeps what the relation carries over. -/
theorem of_keeps {R : σ → σ → Prop} {step : ExceptT ε (StateM σ) α} (h : Keeps R step)
    (hI : ∀ s s', R s s' → I s → I s') : Within I step fun _ => True :=
  fun s _ s' hs hrun => ⟨hI s s' (h.of_run hrun) hs, trivial⟩

/-- A failure that is raised again is a failure. -/
theorem rethrow {step : ExceptT ε (StateM σ) α} {g : ε → ε} (h : Within I step P) :
    Within I (tryCatch step fun e => MonadExcept.throw (g e)) P := by
  intro s a s' hs hrun
  rw [run_tryCatch] at hrun
  rcases hstep : step.run.run s with ⟨result, s₁⟩
  rw [hstep] at hrun
  cases result with
  | ok b => exact h s a s' hs (hstep.trans hrun)
  | error e => exact absurd hrun not_run_throw_ok

end Within

/-! ## Results and failures under an invariant -/

/-- From a state that satisfies the invariant, a step leads to such a state again with a result that
has the property, or it fails for the reason. -/
def Decides (I : σ → Prop) (step : ExceptT ε (StateM σ) α) (P : α → Prop) (reason : Prop) : Prop :=
  ∀ s, I s → match step.run.run s with
    | (.ok a, s') => I s' ∧ P a
    | (.error _, _) => reason

namespace Decides

variable {I : σ → Prop} {P P' : α → Prop} {Q : β → Prop} {reason reason' : Prop}
  {step : ExceptT ε (StateM σ) α} {s s' : σ}

theorem of_ok (h : Decides I step P reason) (hs : I s) {a : α}
    (hrun : step.run.run s = (.ok a, s')) : I s' ∧ P a := by
  have hresult := h s hs
  rwa [hrun] at hresult

theorem of_error (h : Decides I step P reason) (hs : I s) {e : ε}
    (hrun : step.run.run s = (.error e, s')) : reason := by
  have hresult := h s hs
  rwa [hrun] at hresult

/-- A step that has no reason to fail succeeds. -/
theorem exists_ok (h : Decides I step P reason) (hs : I s) (hnot : ¬ reason) :
    ∃ a s', step.run.run s = (.ok a, s') ∧ I s' ∧ P a := by
  rcases hrun : step.run.run s with ⟨result, s'⟩
  cases result with
  | ok a => exact ⟨a, s', rfl, h.of_ok hs hrun⟩
  | error e => exact absurd (h.of_error hs hrun) hnot

theorem within (h : Decides I step P reason) : Within I step P :=
  fun _ _ _ hs hrun => h.of_ok hs hrun

theorem pure {a : α} (h : P a) :
    Decides I (Pure.pure a : ExceptT ε (StateM σ) α) P reason :=
  fun _ hs => ⟨hs, h⟩

theorem throw {e : ε} (h : reason) :
    Decides I (MonadExcept.throw e : ExceptT ε (StateM σ) α) P reason :=
  fun _ _ => h

/-- A result that is known without the state. -/
theorem lift {x : Except ε α} (h : ∀ a, x = .ok a → P a) (he : ∀ e, x = .error e → reason) :
    Decides I (liftM x : ExceptT ε (StateM σ) α) P reason := by
  intro s hs
  rw [run_lift]
  cases x with
  | ok a => exact ⟨hs, h a rfl⟩
  | error e => exact he e rfl

theorem get : Decides I (MonadState.get : ExceptT ε (StateM σ) σ) I reason :=
  fun _ hs => ⟨hs, hs⟩

theorem bind {f : α → ExceptT ε (StateM σ) β} (hstep : Decides I step P reason)
    (hf : ∀ a, P a → Decides I (f a) Q reason) : Decides I (step >>= f) Q reason := by
  intro s hs
  rcases hrun : step.run.run s with ⟨result, s'⟩
  cases result with
  | ok a =>
    obtain ⟨hs', ha⟩ := hstep.of_ok hs hrun
    rw [run_bind_of_ok hrun]
    exact hf a ha s' hs'
  | error e =>
    rw [run_bind_of_error hrun]
    exact hstep.of_error hs hrun

theorem mono (hstep : Decides I step P reason) (h : ∀ a, P a → P' a) (hreason : reason → reason') :
    Decides I step P' reason' := by
  intro s hs
  rcases hrun : step.run.run s with ⟨result, s'⟩
  cases result with
  | ok a =>
    obtain ⟨hs', ha⟩ := hstep.of_ok hs hrun
    exact ⟨hs', h a ha⟩
  | error e => exact hreason (hstep.of_error hs hrun)

/-- What else is known of the result. -/
theorem and (hstep : Decides I step P reason) (h : Within I step P') :
    Decides I step (fun a => P a ∧ P' a) reason := by
  intro s hs
  rcases hrun : step.run.run s with ⟨result, s'⟩
  cases result with
  | ok a =>
    obtain ⟨hs', ha⟩ := hstep.of_ok hs hrun
    exact ⟨hs', ha, (h s a s' hs hrun).2⟩
  | error e => exact hstep.of_error hs hrun

theorem ite {p : Prop} [Decidable p] {step' : ExceptT ε (StateM σ) α}
    (hstep : p → Decides I step P reason) (hstep' : ¬ p → Decides I step' P reason) :
    Decides I (if p then step else step') P reason := by
  split_ifs with hp
  · exact hstep hp
  · exact hstep' hp

/-- A fold over a list, with what holds in front of each part of it. -/
theorem foldlM {f : β → α → ExceptT ε (StateM σ) β} {R : List α → β → Prop}
    (hf : ∀ a rest b, R (a :: rest) b → Decides I (f b a) (R rest) reason) (xs : List α) {b : β}
    (hb : R xs b) : Decides I (xs.foldlM f b) (R []) reason := by
  induction xs generalizing b with
  | nil => exact pure hb
  | cons x xs ih =>
    rw [List.foldlM_cons]
    exact (hf x xs b hb).bind fun _ => ih

end Decides

end ClassSynth
