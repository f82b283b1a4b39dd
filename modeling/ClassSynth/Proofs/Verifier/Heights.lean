import ClassSynth.Proofs.Verifier.Method

/-!
# Heights of the operand stack

Whatever path control takes through the code of a method whose operands have the slots that their
positions ask for, the stack never underflows and never grows beyond what the code declares, and at
every offset it has one height, that of the frame there (`stack_safe_emitMethod`).
-/

namespace ClassSynth

open Emit Emitter VerificationType

/-- The slots of the values on the stack of a frame. -/
def FrameState.height (f : FrameState) : Nat := (flat f.stack).length

/-- The emitter behind the body of a method. -/
def emitterOf (ctx : MethodContext) (body : List Stmt) (pool : ConstantPool) : Emitter :=
  ((do stmts body; endMethod : Emit Unit) ctx).run.run (start ctx pool) |>.2

theorem eq_emitterOf {ctx : MethodContext} {body : List Stmt} {pool : ConstantPool} {f : Emitter}
    (h : Runs (do stmts body; endMethod) ctx (start ctx pool) () f) : f = emitterOf ctx body pool :=
  (congrArg Prod.snd h).symm

/-- The simulated heights of the stack and of the local variables are numbers of 16 bits. -/
structure HeightsFit (ctx : MethodContext) (body : List Stmt) (pool : ConstantPool) : Prop where
  stack : (emitterOf ctx body pool).maxStack ≤ 65535
  locals : (emitterOf ctx body pool).maxLocals ≤ 65535

namespace Verifier

/-- What holds of the code of a method wherever control arrives with a stack of some height. -/
structure SafeAt (pool : ConstantPool) (code : EmittedCode) (decoded : List (Nat × Instruction))
    (pc h : Nat) : Prop where
  bounded : h ≤ code.maxStack.toNat
  unique : ∀ h', Arrives pool decoded height 0 pc h' → h' = h
  frame : ∀ f ∈ code.frames, f.pc = pc → f.height = h
  /-- There is an instruction. It finds what it takes, and touches only local variables that the
  code declares. -/
  next : ∃ i effect h', (pc, i) ∈ decoded ∧ i.effect? pool = some effect ∧
    height pc effect h = some h' ∧ effect.localsEnd ≤ code.maxLocals.toNat

/-- Operands are taken from above the slots that stay. -/
theorem height_of_rest {pc h h' : Nat} {effect : Effect} (rest : Nat)
    (hpops : h = rest + effect.pops) (hpushes : h' = rest + effect.pushes) :
    height pc effect h = some h' := by
  subst hpops hpushes
  rw [height, if_pos (Nat.le_add_left _ _), Nat.add_sub_cancel]

end Verifier

open Verifier

theorem length_flat_append (base xs : List VerificationType) :
    (flat (base ++ xs)).length = (flat base).length + (flat xs).length := by
  rw [flat_append, List.length_append]

/-- The height of the written state follows the effects of instructions. -/
theorem Fits.height {p : Precision} {pc : Nat} {effect : Effect} {s s' : SlotState}
    (h : Fits p pc effect s s') :
    Verifier.height pc effect s.stack.length = some s'.stack.length := by
  have hsingle : ∀ {t : VerificationType} {k : ValueKind}, t.isWide = k.isWide →
      (flat [t]).length = k.slots := by
    intro t k hwide
    rw [flat_cons, flat_nil, List.append_nil, length_slots, hwide, ValueKind.slots]
  have hunder : ∀ {target : VerificationType} {xs : List VerificationType}
      {params : List ValueKind}, target.isWide = false → List.Forall₂ p.Holds xs params →
      (flat (target :: xs)).length = (Effect.init params).pops := by
    intro target xs params htarget hx
    rw [flat_cons, List.length_append, length_slots, htarget, Precision.length_flat hx]
    rfl
  cases h with
  | @takes _ base xs ys pops pushes hs hx hy =>
    have hyields : List.Forall₂ p.Holds ys pushes := hy.imp fun _ _ hy => hy.1
    exact height_of_rest (flat base).length
      (by rw [hs, length_flat_append, Precision.length_flat hx]; rfl)
      (by rw [length_flat_append, Precision.length_flat hyields]; rfl)
  | @null _ base hs =>
    exact height_of_rest (flat base).length (by rw [hs]; rfl) (by rw [length_flat_append]; rfl)
  | @load _ base k slot t hs hwide _ =>
    exact height_of_rest (flat base).length (by rw [hs]; rfl)
      (by rw [length_flat_append, hsingle hwide]; rfl)
  | @store _ base k slot x t hs hx _ _ =>
    exact height_of_rest (flat base).length (by rw [hs, length_flat_append, hsingle hx.isWide]; rfl)
      rfl
  | @drop _ base x hs =>
    exact height_of_rest (flat base).length
      (by rw [hs, length_flat_append, flat_cons, flat_nil, List.append_nil]; rfl) rfl
  | @dup _ base x hs hx =>
    have hslots : x.slots = [x] := by rw [VerificationType.slots, if_neg (by simp [hx])]
    exact height_of_rest (flat base).length
      (by rw [hs, length_flat_append, flat_cons, hslots]; rfl)
      (by rw [length_flat_append, flat_cons, flat_cons, hslots]; rfl)
  | @new _ base offset hs _ =>
    exact height_of_rest (flat base).length (by rw [hs]; rfl) (by rw [length_flat_append]; rfl)
  | @construct _ base xs params target old index hs hx htarget _ _ =>
    refine height_of_rest (flat base).length (by rw [hs, length_flat_append, hunder htarget hx]) ?_
    exact List.length_map _
  | @again _ base xs params target hs hx htarget =>
    exact height_of_rest (flat base).length
      (by rw [hs, length_flat_append, hunder htarget.isWide hx]) rfl

theorem follows_height (p : Precision) :
    Follows p Verifier.height fun s h => s.stack.length = h where
  forget := fun hforgets hs => by rw [hforgets.stack, hs]
  step := by
    rintro pc effect s s' h hfits rfl
    exact ⟨_, hfits.height, rfl⟩

namespace Emit

variable {ctx : MethodContext} {body : List Stmt} {pool : ConstantPool} {code : EmittedCode}

theorem toNat_toUInt16 {n : Nat} (h : n ≤ 65535) : n.toUInt16.toNat = n := by
  simpa using Nat.mod_eq_of_lt (Nat.lt_succ_of_le h)

/-- A frame has the height of the written state. -/
theorem height_toFrame {s : SlotState} (h : s.Valued) (pc : Nat) :
    (s.toFrame pc).height = s.stack.length := by
  obtain ⟨ts, hts⟩ := h
  rw [FrameState.height, SlotState.toFrame, hts, ofSlots_flat]

/-- Wherever control arrives in annotated code, the stack is safe. -/
theorem Explained.safeAt {f : Emitter} {states : List (Option SlotState)}
    (h : Explained .width ctx pool code f states) (hpool : f.pool.Indexable)
    (hstack : f.maxStack ≤ 65535) (hlocals : f.maxLocals ≤ 65535) {pc height : Nat}
    (harrives : Verifier.Arrives f.pool f.listing Verifier.height 0 pc height) :
    Verifier.SafeAt f.pool code f.listing pc height := by
  have hwritten : ∀ {pc height}, Verifier.Arrives f.pool f.listing Verifier.height 0 pc height →
      ∃ s, Written f states pc s ∧ s.stack.length = height ∧ ∃ i effect height',
        (pc, i) ∈ f.listing ∧ i.effect? f.pool = some effect ∧
        Verifier.height pc effect height = some height' ∧ effect.localsEnd ≤ f.maxLocals :=
    fun harrives => h.of_arrives hpool (follows_height .width) rfl harrives
  obtain ⟨s, hs, rfl, i, effect, height', hi, heffect, hheight, hend⟩ := hwritten harrives
  refine ⟨?_, fun other hother => ?_, fun fr hfr hpc => ?_, i, effect, height', hi, heffect,
    hheight, ?_⟩
  · rw [h.maxStack, toNat_toUInt16 hstack]
    exact (h.valued hs).2
  · obtain ⟨t, ht, rfl, _⟩ := hwritten hother
    rw [ht.unique hs]
  · obtain ⟨t, ht, hframe⟩ := h.written_of_frame hfr
    rw [hframe, ht.unique (hpc ▸ hs), height_toFrame (h.valued hs).1]
  · rw [h.maxLocals, toNat_toUInt16 hlocals]
    exact hend

/-- The stack of a method whose operands have the slots that their positions ask for is safe on
every path. -/
theorem stack_safe_emitMethod (hbody : TypedBody .width ctx body) (hfit : HeightsFit ctx body pool)
    (hpool : (emitMethod ctx body pool).2.Indexable)
    (h : (emitMethod ctx body pool).1 = .ok code) :
    ∃ decoded, Instruction.decode code.code = .ok decoded ∧
      (∀ source ∈ decoded, ∀ target ∈ source.2.labels,
        target < code.code.length ∧ ∃ i, (target, i) ∈ decoded) ∧
      ∀ pc height,
        Verifier.Arrives (emitMethod ctx body pool).2 decoded Verifier.height 0 pc height →
        Verifier.SafeAt (emitMethod ctx body pool).2 code decoded pc height := by
  obtain ⟨f, states, hrun, hfinal, hexplained⟩ :=
    exists_explained hbody h fun f hrun _ => eq_emitterOf hrun ▸ hfit.locals
  have hstack : f.maxStack ≤ 65535 := eq_emitterOf hrun ▸ hfit.stack
  have hlocals : f.maxLocals ≤ 65535 := eq_emitterOf hrun ▸ hfit.locals
  rw [hfinal] at hpool ⊢
  refine ⟨f.listing, hexplained.decoded, fun source hsource target htarget => ?_,
    fun pc height harrives => hexplained.safeAt hpool hstack hlocals harrives⟩
  obtain ⟨i, hi⟩ := hexplained.exists_target hsource htarget
  exact ⟨hexplained.offset_lt hi, i, hi⟩

/-- A method that tests and compares its arguments, the code of which is reached on several paths.
-/
theorem stack_safe_emitMethod_tests :
    ∃ code decoded, (emitMethod
        { className := ⟨"A"⟩, params := [⟨"long"⟩, .boolean], ret := .boolean, isStatic := true }
        [.ifThen (.param 2)
          [.declareLocal "x" ⟨"long"⟩ (.param 1),
            .ret (some (.compare .eq (.localVar "x" ⟨"long"⟩) (.param 1)))],
          .ret (some (.and [.param 2]))] .empty).1 = .ok code ∧
      code.code = [28, 153, 0, 17, 30, 66, 33, 30, 148, 154, 0, 7, 4, 167, 0, 4, 3, 172,
        28, 153, 0, 7, 4, 167, 0, 4, 3, 172] ∧
      Instruction.decode code.code = .ok decoded ∧
      (∀ source ∈ decoded, ∀ target ∈ source.2.labels,
        target < code.code.length ∧ ∃ i, (target, i) ∈ decoded) ∧
      ∀ pc height, Verifier.Arrives .empty decoded Verifier.height 0 pc height →
        Verifier.SafeAt .empty code decoded pc height := by
  have hemit : emitMethod
      { className := ⟨"A"⟩, params := [⟨"long"⟩, .boolean], ret := .boolean, isStatic := true }
      [.ifThen (.param 2)
        [.declareLocal "x" ⟨"long"⟩ (.param 1),
          .ret (some (.compare .eq (.localVar "x" ⟨"long"⟩) (.param 1)))],
        .ret (some (.and [.param 2]))] .empty
      = (.ok ⟨[28, 153, 0, 17, 30, 66, 33, 30, 148, 154, 0, 7, 4, 167, 0, 4, 3, 172,
          28, 153, 0, 7, 4, 167, 0, 4, 3, 172], 4, 5,
          [⟨16, [.long, .integer, .long], []⟩, ⟨17, [.long, .integer, .long], [.integer]⟩,
            ⟨18, [.long, .integer], []⟩, ⟨26, [.long, .integer], []⟩,
            ⟨27, [.long, .integer], [.integer]⟩]⟩, .empty) :=
    Prod.ext (by decide +kernel) (ConstantPool.ext_slots (by decide +kernel))
  obtain ⟨decoded, hdecode, htargets, hsafe⟩ := stack_safe_emitMethod ⟨by decide, by decide⟩
    ⟨by decide +kernel, by decide +kernel⟩ (by rw [hemit]; exact Nat.zero_le _)
    (congrArg Prod.fst hemit)
  rw [hemit] at hsafe
  exact ⟨_, decoded, congrArg Prod.fst hemit, rfl, hdecode, htargets, hsafe⟩

end Emit

end ClassSynth
