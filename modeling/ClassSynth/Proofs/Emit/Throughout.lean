import ClassSynth.Proofs.Emit.Run

/-!
# What holds throughout a run

Lowering composes a few elementary steps by bind. `Throughout P ctx x e` says that the property `P`
of emitters holds in every state that the step `x` goes through from `e`: before and after each
elementary step, also where the step fails. `Works pre x post` is a triple of it: from every state
with the precondition the invariant holds throughout, and the postcondition where the step succeeds.
-/

namespace ClassSynth

namespace Emit

variable {α β : Type} {ctx : MethodContext} {e e' : Emitter}

/-! ## Failures -/

/-- The step fails, and leaves a state behind. -/
def Fails (x : Emit α) (ctx : MethodContext) (e e' : Emitter) : Prop :=
  ∃ err, ((x ctx).run.run e).run = (.error err, e')

/-- The state after a step, whether it failed or not. -/
def stateAfter (ctx : MethodContext) (x : Emit α) (e : Emitter) : Emitter :=
  ((x ctx).run.run e).run.2

theorem runs_or_fails (ctx : MethodContext) (x : Emit α) (e : Emitter) :
    (∃ a, Runs x ctx e a (stateAfter ctx x e)) ∨ Fails x ctx e (stateAfter ctx x e) := by
  unfold Runs Fails stateAfter
  rcases ((x ctx).run.run e).run with ⟨r, e'⟩
  cases r with
  | ok a => exact .inl ⟨a, rfl⟩
  | error err => exact .inr ⟨err, rfl⟩

theorem Runs.stateAfter_eq {x : Emit α} {a : α} (h : Runs x ctx e a e') : stateAfter ctx x e = e' :=
  congrArg Prod.snd h

theorem Fails.stateAfter_eq {x : Emit α} (h : Fails x ctx e e') : stateAfter ctx x e = e' := by
  obtain ⟨err, h⟩ := h
  exact congrArg Prod.snd h

theorem fails_bind {x : Emit α} {f : α → Emit β} :
    Fails (x >>= f) ctx e e' ↔
      Fails x ctx e e' ∨ ∃ a e₁, Runs x ctx e a e₁ ∧ Fails (f a) ctx e₁ e' := by
  have hrun : (((x >>= f) ctx).run.run e).run =
      match ((x ctx).run.run e).run with
      | (.ok a, e₁) => ((f a ctx).run.run e₁).run
      | (.error err, e₁) => (.error err, e₁) := by
    change ExceptT.bindCont (fun a => f a ctx) (x ctx e).1 (x ctx e).2 = _
    change _ = match x ctx e with | (.ok a, e₁) => f a ctx e₁ | (.error err, e₁) => _
    rcases x ctx e with ⟨r, e₁⟩
    cases r <;> rfl
  unfold Fails Runs
  rw [hrun]
  rcases ((x ctx).run.run e).run with ⟨r, e₁⟩
  cases r with
  | error err => simp
  | ok a =>
    simp only [reduceCtorEq, false_and, Prod.mk.injEq, Except.ok.injEq]
    constructor
    · exact fun h => .inr ⟨a, e₁, ⟨rfl, rfl⟩, h⟩
    · rintro (⟨_, h⟩ | ⟨_, _, ⟨rfl, rfl⟩, h⟩)
      · cases h
      · exact h

theorem not_fails_pure {a : α} : ¬ Fails (pure a) ctx e e' :=
  fun ⟨_, h⟩ => nomatch congrArg Prod.fst h

theorem not_fails_modifyGet {f : Emitter → α × Emitter} : ¬ Fails (modifyGet f) ctx e e' :=
  fun ⟨_, h⟩ => nomatch congrArg Prod.fst h

theorem not_fails_modify {f : Emitter → Emitter} : ¬ Fails (modify f) ctx e e' :=
  not_fails_modifyGet

theorem fails_get_bind {f : Emitter → Emit β} :
    Fails (get >>= f) ctx e e' ↔ Fails (f e) ctx e e' := Iff.rfl

theorem fails_read_bind {f : MethodContext → Emit β} :
    Fails (read >>= f) ctx e e' ↔ Fails (f ctx) ctx e e' := Iff.rfl

theorem fails_modify_bind {f : Emitter → Emitter} {g : Unit → Emit β} :
    Fails (modify f >>= g) ctx e e' ↔ Fails (g ()) ctx (f e) e' := Iff.rfl

theorem fails_label_bind {l : Label} {f : LabelInfo → Emit β} :
    Fails (label l >>= f) ctx e e' ↔ Fails (f (e.info l)) ctx e e' := Iff.rfl

theorem Fails.eq_of_fail {cause : CodeGenError} (h : Fails (fail (α := α) cause) ctx e e') :
    e' = e := by
  obtain ⟨_, h⟩ := h
  exact (congrArg Prod.snd h).symm

theorem Fails.eq_of_orFail {r : Except CodeGenError α} (h : Fails (orFail r) ctx e e') :
    e' = e := by
  cases r with
  | ok a => exact absurd h not_fails_pure
  | error cause => exact h.eq_of_fail

/-- A pop that fails changes nothing. -/
theorem Fails.eq_of_pop {n : Nat} (h : Fails (pop n) ctx e e') : e' = e := by
  rw [pop, fails_get_bind] at h
  split at h
  · exact absurd h not_fails_modify
  · exact Fails.eq_of_fail (fails_read_bind.mp h)

/-- A jump fails before or after its instruction; then it hands no state to its label. -/
theorem Fails.of_branch {opcode : UInt8} {l : Label} {n : Nat}
    (h : Fails (branch opcode l n) ctx e e') :
    e' = e ∨ ∃ s, e.slots.pop? n = some s ∧
      e' = ({ e with slots := s } : Emitter).append ⟨opcode, .branch l⟩ := by
  unfold branch at h
  rcases fails_bind.mp h with hpop | ⟨_, e₁, hpop, hrest⟩
  · exact .inl hpop.eq_of_pop
  obtain ⟨s, hs, rfl⟩ := runs_pop.mp hpop
  refine .inr ⟨s, hs, ?_⟩
  rw [fails_get_bind, instruction, fails_modify_bind, fails_label_bind, fails_get_bind] at hrest
  split at hrest
  · rcases fails_bind.mp hrest with hmerge | ⟨_, _, _, hmodify⟩
    · exact hmerge.eq_of_orFail
    · exact absurd hmodify not_fails_modify
  · exact absurd hrest not_fails_modify

/-- A label whose state does not agree with the slots before it is placed all the same. -/
theorem Fails.of_place {l : Label} (h : Fails (place l) ctx e e') : e' = placed e l := by
  rw [place, fails_get_bind, fails_label_bind, fails_modify_bind] at h
  split at h
  · exact absurd h not_fails_pure
  · split_ifs at h with hreachable
    · rcases fails_bind.mp h with hmerge | ⟨_, _, _, hmodify⟩
      · exact hmerge.eq_of_orFail
      · exact absurd hmodify not_fails_modify
    · rcases fails_bind.mp h with hpure | ⟨_, _, _, hmodify⟩
      · exact absurd hpure not_fails_pure
      · exact absurd hmodify not_fails_modify

/-! ## Throughout a run -/

/-- The steps that lowering is made of. -/
inductive Elementary : {α : Type} → Emit α → Prop
  | pure {α : Type} (a : α) : Elementary (Pure.pure a)
  | get : Elementary MonadState.get
  | read : Elementary MonadReader.read
  | fail {α : Type} (cause : CodeGenError) : Elementary (fail (α := α) cause)
  | instruction (opcode : UInt8) (operand : Operand) : Elementary (instruction opcode operand)
  | addConstants {α : Type} (step : ConstantPool.Adding α) : Elementary (addConstants step)
  | push (t : VerificationType) : Elementary (push t)
  | pop (slots : Nat) : Elementary (pop slots)
  | setLocal (slot : Nat) (t : VerificationType) : Elementary (setLocal slot t)
  | replaceAll (old new : VerificationType) : Elementary (replaceAll old new)
  | newLabel : Elementary newLabel
  | branch (opcode : UInt8) (l : Label) (pops : Nat) : Elementary (branch opcode l pops)
  | place (l : Label) : Elementary (place l)
  | declare (name : String) (t : TypeName) : Elementary (declare name t)
  | endOfFlow : Elementary endOfFlow
  | endFragment : Elementary endFragment

/-- The property holds in every state that the step goes through. -/
inductive Throughout (P : Emitter → Prop) (ctx : MethodContext) :
    {α : Type} → Emit α → Emitter → Prop
  | elementary {α : Type} {x : Emit α} {e : Emitter} (h : Elementary x) (hbefore : P e)
      (hafter : P (stateAfter ctx x e)) : Throughout P ctx x e
  | bind {α β : Type} {x : Emit α} {f : α → Emit β} {e : Emitter} (hfirst : Throughout P ctx x e)
      (hrest : ∀ a e₁, Runs x ctx e a e₁ → Throughout P ctx (f a) e₁) :
      Throughout P ctx (x >>= f) e

theorem Throughout.imp {P Q : Emitter → Prop} {x : Emit α} (h : Throughout P ctx x e)
    (hPQ : ∀ e, P e → Q e) : Throughout Q ctx x e := by
  induction h with
  | elementary hx hbefore hafter => exact .elementary hx (hPQ _ hbefore) (hPQ _ hafter)
  | bind _ _ ihfirst ihrest => exact .bind ihfirst ihrest

/-- What holds throughout holds where the step ends, also if it fails there. -/
theorem Throughout.after {P : Emitter → Prop} {x : Emit α} (h : Throughout P ctx x e) :
    P (stateAfter ctx x e) := by
  induction h with
  | elementary _ _ hafter => exact hafter
  | @bind α β x f e _ _ ihfirst ihrest =>
    rcases runs_or_fails ctx (x >>= f) e with ⟨b, hruns⟩ | hfails
    · obtain ⟨a, e₁, ha, hb⟩ := runs_bind.mp hruns
      rw [← hb.stateAfter_eq]
      exact ihrest a e₁ ha
    · rcases fails_bind.mp hfails with hfails | ⟨a, e₁, ha, hfails⟩
      · rw [← hfails.stateAfter_eq]
        exact ihfirst
      · rw [← hfails.stateAfter_eq]
        exact ihrest a e₁ ha

/-! ## Triples -/

/-- From states with the precondition, the invariant holds throughout the step, and the
postcondition where it succeeds. -/
def Works (P : Emitter → Prop) (ctx : MethodContext) (pre : Emitter → Prop) (x : Emit α)
    (post : α → Emitter → Prop) : Prop :=
  ∀ e, pre e → Throughout P ctx x e ∧ ∀ a e', Runs x ctx e a e' → post a e'

namespace Works

variable {P pre pre' R : Emitter → Prop} {x : Emit α} {f : α → Emit β}
  {post post' : α → Emitter → Prop} {last : β → Emitter → Prop}

theorem bind (hx : Works P ctx pre x post) (hf : ∀ a, Works P ctx (post a) (f a) last) :
    Works P ctx pre (x >>= f) last := by
  intro e he
  obtain ⟨hthroughout, hpost⟩ := hx e he
  refine ⟨.bind hthroughout fun a e₁ ha => (hf a e₁ (hpost a e₁ ha)).1, fun b e' h => ?_⟩
  obtain ⟨a, e₁, ha, hb⟩ := runs_bind.mp h
  exact (hf a e₁ (hpost a e₁ ha)).2 b e' hb

theorem weaken (hx : Works P ctx pre x post) (hpre : ∀ e, pre' e → pre e)
    (hpost : ∀ a e, post a e → post' a e) : Works P ctx pre' x post' :=
  fun e he => (hx e (hpre e he)).imp_right fun h a e' hruns => hpost a e' (h a e' hruns)

theorem of_pre (hx : Works P ctx pre x post) (hpre : ∀ e, pre' e → pre e) :
    Works P ctx pre' x post :=
  hx.weaken hpre fun _ _ => id

theorem to_post (hx : Works P ctx pre x post) (hpost : ∀ a e, post a e → post' a e) :
    Works P ctx pre x post' :=
  hx.weaken (fun _ => id) hpost

/-- What the step leaves as it is may be added to both sides. -/
theorem frame (hx : Works P ctx pre x post)
    (hframe : ∀ e a e', Runs x ctx e a e' → R e → R e') :
    Works P ctx (fun e => pre e ∧ R e) x fun a e => post a e ∧ R e :=
  fun e he => (hx e he.1).imp_right fun h a e' hruns => ⟨h a e' hruns, hframe e a e' hruns he.2⟩

/-- The two preconditions may lead to different ends. -/
theorem or (hx : Works P ctx pre x post) (hx' : Works P ctx pre' x post') :
    Works P ctx (fun e => pre e ∨ pre' e) x fun a e => post a e ∨ post' a e := by
  rintro e (he | he)
  · exact (hx e he).imp_right fun h a e' hruns => .inl (h a e' hruns)
  · exact (hx' e he).imp_right fun h a e' hruns => .inr (h a e' hruns)

theorem ite {p : Prop} [Decidable p] {y : Emit α} (hx : p → Works P ctx pre x post)
    (hy : ¬ p → Works P ctx pre y post) : Works P ctx pre (if p then x else y) post := by
  split_ifs with h
  · exact hx h
  · exact hy h

/-- What is known apart from the state may be assumed. -/
theorem assume {p : Prop} (hx : p → Works P ctx pre x post) :
    Works P ctx (fun e => p ∧ pre e) x post :=
  fun e he => hx he.1 e he.2

theorem of_exists {γ : Type} {pres : γ → Emitter → Prop} (hx : ∀ c, Works P ctx (pres c) x post) :
    Works P ctx (fun e => ∃ c, pres c e) x post :=
  fun e ⟨c, he⟩ => hx c e he

/-- An elementary step works, if it keeps the invariant where it ends, also where it fails. -/
theorem of_elementary (hx : Elementary x) (hpre : ∀ e, pre e → P e)
    (hpost : ∀ e a e', pre e → Runs x ctx e a e' → post a e') (hP : ∀ a e, post a e → P e)
    (hfails : ∀ e e', pre e → Fails x ctx e e' → P e') : Works P ctx pre x post := by
  refine fun e he => ⟨.elementary hx (hpre e he) ?_, fun a e' h => hpost e a e' he h⟩
  rcases runs_or_fails ctx x e with ⟨a, hruns⟩ | hfailed
  · exact hP a _ (hpost e a _ he hruns)
  · exact hfails e _ he hfailed

theorem pure {a : α} (hpre : ∀ e, pre e → P e) :
    Works P ctx pre (Pure.pure a : Emit α) fun b e => b = a ∧ pre e :=
  of_elementary (.pure a) hpre
    (fun e b e' he h => by obtain ⟨rfl, rfl⟩ := runs_pure.mp h; exact ⟨rfl, he⟩)
    (fun _ e he => hpre e he.2) fun _ _ _ h => absurd h not_fails_pure

theorem fail {cause : CodeGenError} (hpre : ∀ e, pre e → P e) :
    Works P ctx pre (Emit.fail cause : Emit α) post := by
  refine fun e he => ⟨.elementary (.fail cause) (hpre e he) (hpre e he), fun a e' h => ?_⟩
  exact absurd h runs_fail

theorem fail_bind {cause : CodeGenError} (hpre : ∀ e, pre e → P e) :
    Works P ctx pre (Emit.fail cause >>= f) last :=
  have hfail : Works P ctx pre (Emit.fail cause : Emit α) fun _ _ => False := fail hpre
  hfail.bind fun _ _ h => h.elim

theorem get_bind {g : Emitter → Emit β} (hpre : ∀ e, pre e → P e)
    (hg : ∀ s, pre s → Works P ctx pre (g s) last) :
    Works P ctx pre (MonadState.get >>= g) last := by
  refine fun e he => ⟨.bind (.elementary .get (hpre e he) (hpre e he)) fun s e₁ h => ?_,
    fun b e' h => (hg e he e he).2 b e' (runs_get_bind.mp h)⟩
  obtain ⟨rfl, rfl⟩ := runs_get.mp h
  exact (hg e₁ he e₁ he).1

theorem read_bind {g : MethodContext → Emit β} (hpre : ∀ e, pre e → P e)
    (hg : Works P ctx pre (g ctx) last) : Works P ctx pre (MonadReader.read >>= g) last := by
  refine fun e he => ⟨.bind (.elementary .read (hpre e he) (hpre e he)) fun c e₁ h => ?_,
    fun b e' h => (hg e he).2 b e' (runs_read_bind.mp h)⟩
  obtain ⟨rfl, rfl⟩ := runs_read.mp h
  exact (hg e₁ he).1

end Works

end Emit

end ClassSynth
