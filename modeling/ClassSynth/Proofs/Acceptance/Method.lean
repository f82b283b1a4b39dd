import ClassSynth.Proofs.Acceptance.Statements
import ClassSynth.Proofs.Verifier.Heights

/-!
# Methods that are emitted

A body whose operands have the slots that they should have is emitted, as long as its code stays
within the range of jumps (`Finished.exists_emitMethod`). Then the numbers that the emitter counts
stay small, too: the stack has at most twice as many slots as the code has bytes.
-/

namespace ClassSynth

open Emit

namespace Emitter

/-! ## Ends of code -/

/-- Labels and jumps lie within the code. -/
structure InReach (e : Emitter) : Prop where
  placed : ∀ info ∈ e.labels.toList, ∀ p, info.placement? = some p → p.pc ≤ e.pc
  jumps : ∀ info ∈ e.labels.toList, ∀ pc ∈ info.jumps, pc ≤ e.pc

namespace InReach

variable {locals : Bool} {floor : Nat} {e e' : Emitter}

/-- More code and the same labels. -/
theorem grow (he : e.InReach) (hlabels : e'.labels = e.labels) (hpc : e.pc ≤ e'.pc) :
    e'.InReach where
  placed := fun info hinfo p hp =>
    Nat.le_trans (he.placed info (hlabels ▸ hinfo) p hp) hpc
  jumps := fun info hinfo pc hjump =>
    Nat.le_trans (he.jumps info (hlabels ▸ hinfo) pc hjump) hpc

/-- What is known of a label keeps within the code. -/
theorem info (he : e.InReach) (l : Label) :
    (∀ p, (e.info l).placement? = some p → p.pc ≤ e.pc) ∧ ∀ pc ∈ (e.info l).jumps, pc ≤ e.pc := by
  by_cases hl : l < e.labels.size
  · exact ⟨he.placed _ (info_mem hl), he.jumps _ (info_mem hl)⟩
  · rw [info_of_le (Nat.le_of_not_lt hl)]
    exact ⟨fun _ hp => (nomatch hp), fun _ hpc => (nomatch hpc)⟩

theorem step (hstep : Step locals floor e e') (he : e.InReach) : e'.InReach := by
  cases hstep with
  | newLabel =>
    constructor
    · intro info hinfo p hp
      rw [Array.toList_push, List.mem_append, List.mem_singleton] at hinfo
      rcases hinfo with hinfo | rfl
      · exact he.placed info hinfo p hp
      · cases hp
    · intro info hinfo pc hpc
      rw [Array.toList_push, List.mem_append, List.mem_singleton] at hinfo
      rcases hinfo with hinfo | rfl
      · exact he.jumps info hinfo pc hpc
      · cases hpc
  | jump opcode l s hopcode hl =>
    have hgrown : e.pc ≤ (e.append ⟨opcode, .branch l⟩).pc := Nat.le_add_right _ _
    constructor
    · intro info hinfo p hp
      rcases mem_setIfInBounds hinfo with hinfo | rfl
      · exact Nat.le_trans (he.placed info hinfo p hp) hgrown
      · exact Nat.le_trans ((he.info l).1 p hp) hgrown
    · intro info hinfo pc hpc
      rcases mem_setIfInBounds hinfo with hinfo | rfl
      · exact Nat.le_trans (he.jumps info hinfo pc hpc) hgrown
      · rcases List.mem_cons.mp hpc with rfl | hpc
        · exact hgrown
        · exact Nat.le_trans ((he.info l).2 pc hpc) hgrown
  | place l | join l =>
    constructor
    · intro info hinfo p hp
      rcases mem_setIfInBounds hinfo with hinfo | rfl
      · exact he.placed info hinfo p hp
      · obtain rfl := Option.some.inj hp
        exact Nat.le_refl _
    · intro info hinfo pc hpc
      rcases mem_setIfInBounds hinfo with hinfo | rfl
      · exact he.jumps info hinfo pc hpc
      · exact (he.info l).2 pc hpc
  | instruction | exit => exact he.grow rfl (Nat.le_add_right _ _)
  | _ => exact he.grow rfl (Nat.le_refl _)

theorem steps (hsteps : Steps locals floor e e') (he : e.InReach) : e'.InReach :=
  hsteps.invariant (fun _ _ hstep he => step hstep he) he

theorem start (ctx : MethodContext) (pool : ConstantPool) : (Emit.start ctx pool).InReach :=
  ⟨fun _ hinfo => (nomatch hinfo), fun _ hinfo => (nomatch hinfo)⟩

end InReach

end Emitter

namespace Emit

open Emitter

variable {ctx : MethodContext} {e : Emitter}

theorem forM_ok {α : Type} {f : α → Except Error Unit} {xs : List α}
    (h : ∀ x ∈ xs, f x = .ok ()) : xs.forM f = .ok () := by
  induction xs with
  | nil => rfl
  | cons x xs ih =>
    exact Checked.bind_eq_ok.mpr ⟨(), h x List.mem_cons_self,
      ih fun y hy => h y (List.mem_cons_of_mem _ hy)⟩

theorem checkJumps_ok {target : Nat} {pcs : List Nat} (htarget : target ≤ 32767)
    (h : ∀ pc ∈ pcs, pc ≤ 32767) : checkJumps target pcs = .ok () := by
  induction pcs with
  | nil => rfl
  | cons pc pcs ih =>
    have hpc := h pc List.mem_cons_self
    have hrange : ¬ ((target : Int) - pc < -32768 ∨ (target : Int) - pc > 32767) := by omega
    rw [checkJumps, if_neg hrange]
    exact ih fun pc hpc => h pc (List.mem_cons_of_mem _ hpc)

/-- Code whose labels are placed can be finished, within the range of jumps. -/
theorem exists_finish (hordered : e.Ordered) (hreach : e.InReach)
    (hplaced : ∀ l < e.labels.size, (e.info l).placement? ≠ none) (hpc : e.pc ≤ 65535)
    (hrange : e.pc ≤ 32767 ∨ e.labels.size = 0) : ∃ code, finish e = .ok code := by
  have hcheck : e.labels.toList.forM checkLabel = .ok () := by
    refine forM_ok fun info hinfo => ?_
    obtain ⟨l, hl, hget⟩ := List.mem_iff_getElem.mp hinfo
    rw [Array.length_toList] at hl
    obtain rfl : info = e.info l := by
      rw [Emitter.info, Array.getD_eq_getD_getElem?, Array.getElem?_eq_getElem hl, ← hget]
      rfl
    obtain ⟨p, hp⟩ := Option.ne_none_iff_exists'.mp (hplaced l hl)
    have hrange : e.pc ≤ 32767 := hrange.resolve_right (by omega)
    rw [checkLabel, hp]
    split_ifs
    · rfl
    · exact checkJumps_ok (Nat.le_trans ((hreach.info l).1 p hp) hrange) fun pc hjump =>
        Nat.le_trans ((hreach.info l).2 pc (List.mem_reverse.mp hjump)) hrange
  have hend : Instruction.endFrom 0 (resolvedCode e) = e.pc := by
    rw [← Instruction.offsetIn_length, resolvedCode, Instruction.offsetIn_mapLabels,
      List.length_map, Instruction.offsetIn_length, hordered.pc]
  obtain ⟨bytes, hbytes⟩ : ∃ bytes, Instruction.encode (resolvedCode e) = .ok bytes := by
    refine Instruction.exists_encode (hend ▸ hpc) (fun i hi l hl => ?_) ?_
    · obtain ⟨j, hj, rfl⟩ := List.mem_map.mp hi
      rw [Instruction.labels_mapLabels, List.mem_map] at hl
      obtain ⟨m, hm, rfl⟩ := hl
      obtain ⟨_, p, hp, hposition⟩ := hordered.resolveLabel_of_finish (forM_eq_ok hcheck) hj hm
      obtain ⟨info, hinfo, -⟩ := hordered.known j hj m hm
      have hm : m < e.labels.size := (Array.getElem?_eq_some_iff.mp hinfo).1
      rw [hposition, resolvedCode, List.length_map, Array.length_toList]
      exact hordered.placed _ (info_mem hm) p hp
    · refine hrange.imp (fun h => hend.symm ▸ h) fun hnone i hi => ?_
      obtain ⟨j, hj, rfl⟩ := List.mem_map.mp hi
      rw [Instruction.labels_mapLabels, List.map_eq_nil_iff, List.eq_nil_iff_forall_not_mem]
      intro m hm
      obtain ⟨info, hinfo, -⟩ := hordered.known j hj m hm
      exact Nat.not_lt_zero m (hnone ▸ (Array.getElem?_eq_some_iff.mp hinfo).1)
  unfold finish
  rw [hcheck, hbytes, if_neg (Nat.not_lt.mpr hpc)]
  exact ⟨_, rfl⟩

/-- A step that succeeds is followed by the end of emission. -/
theorem runWith_eq {step : Emit Unit} {pool : ConstantPool}
    (h : Runs step ctx (start ctx pool) () e) : runWith step ctx pool = (finish e, e.pool) := by
  have hrun : (step ctx).run.run (start ctx pool) = (.ok (), e) := h
  rw [runWith, hrun]

/-! ## Bodies -/

/-- A body whose operands have the slots that they should have, and which ends control unless the
method returns nothing. -/
structure Slotted (declares : Bool) (ctx : MethodContext) (body : List Stmt) : Prop where
  scope : (Stmt.scopeAfterAll? declares ctx [] body).isSome = true
  ends : ctx.ret.isVoid = true ∨ Stmt.exitsAll body = true

variable {declares : Bool} {body : List Stmt} {pool : ConstantPool}

theorem level_start (hnext : declares = true → ctx.isStatic = false →
    0 < (start ctx pool).nextLocal) : Level ctx declares [] (start ctx pool) where
  stack := rfl
  paid := Nat.zero_le _
  maxStack := Nat.zero_le _
  receiver := fun hstatic => by
    have hlocals : (start ctx pool).slots.locals = (ctx.entryReceiver.run pool).1 ++
        ((MethodContext.slotsOfTypes ctx.params).run (ctx.entryReceiver.run pool).2).1 := rfl
    rw [hlocals, MethodContext.entryReceiver, hstatic, if_neg Bool.false_ne_true]
    split_ifs <;> rfl
  named := rfl
  behind := fun _ l hl => (nomatch hl)
  next := hnext

/-- Behind a body comes a return, unless control has ended. -/
theorem passes_endMethod {reached : Bool} {scope : TypeScope} (he : Level ctx declares scope e)
    (hreached : e.reachable = reached) (hend : ctx.ret.isVoid = true ∨ reached = false) :
    Passes ctx declares scope false endMethod e := by
  unfold endMethod
  cases hreachable : e.reachable with
  | false =>
    refine ⟨e, ?_, he, .of_labels rfl, hreachable⟩
    rw [runs_get_bind, hreachable]
    exact runs_pure.mpr ⟨rfl, rfl⟩
  | true =>
    have hvoid : ctx.ret.isVoid = true :=
      hend.resolve_right (by simp [← hreached, hreachable])
    obtain ⟨e', hrun, hpassed⟩ := passes_return he hreachable
    refine ⟨e', ?_, hpassed⟩
    rw [runs_get_bind, hreachable, if_pos rfl, runs_read_bind]
    dsimp only
    rwa [if_neg (by simp [hvoid])]

/-- Lowering a body succeeds. -/
theorem passes_body (hbody : Slotted declares ctx body)
    (hnext : declares = true → ctx.isStatic = false → 0 < (start ctx pool).nextLocal) :
    ∃ scope, Passes ctx declares scope false (do stmts body; endMethod) (start ctx pool) := by
  obtain ⟨scope, hscope⟩ := Option.isSome_iff_exists.mp hbody.scope
  obtain ⟨e₁, hrun₁, he₁, hcloses₁, hreachable₁⟩ :=
    passes_stmts body hscope (level_start hnext) rfl
  obtain ⟨e₂, hrun₂, he₂, hcloses₂, hreachable₂⟩ :=
    passes_endMethod he₁ hreachable₁ (hbody.ends.imp_right fun h => by rw [h]; rfl)
  exact ⟨scope, e₂, runs_bind.mpr ⟨(), e₁, hrun₁, hrun₂⟩, he₂, hcloses₁.trans hcloses₂,
    hreachable₂⟩

/-- What is known of the emitter behind a body. -/
structure Finished (ctx : MethodContext) (body : List Stmt) (pool : ConstantPool) : Prop where
  runs : Runs (do stmts body; endMethod) ctx (start ctx pool) () (emitterOf ctx body pool)
  stack : (emitterOf ctx body pool).slots.stack = []
  maxStack : (emitterOf ctx body pool).maxStack ≤ 2 * (emitterOf ctx body pool).pc
  placed : ∀ l < (emitterOf ctx body pool).labels.size,
    ((emitterOf ctx body pool).info l).placement? ≠ none

theorem Finished.of_slotted (hbody : Slotted declares ctx body)
    (hnext : declares = true → ctx.isStatic = false → 0 < (start ctx pool).nextLocal) :
    Finished ctx body pool := by
  obtain ⟨scope, e, hrun, he, hcloses, -⟩ := passes_body hbody hnext
  obtain rfl := eq_emitterOf hrun
  exact ⟨hrun, he.at_nil.stack, he.maxStack, fun l hl => hcloses.new l (Nat.zero_le l) hl⟩

/-- A body that is lowered is emitted, as long as its code stays within the range of jumps. -/
theorem Finished.exists_emitMethod (h : Finished ctx body pool)
    (hpc : (emitterOf ctx body pool).pc ≤ 65535)
    (hrange : (emitterOf ctx body pool).pc ≤ 32767 ∨ (emitterOf ctx body pool).labels.size = 0) :
    ∃ code, emitMethod ctx body pool = (.ok code, (emitterOf ctx body pool).pool) := by
  obtain ⟨hsteps, -⟩ := steps_method h.runs
  obtain ⟨code, hcode⟩ := exists_finish (Ordered.steps hsteps (.start ctx pool))
    (.steps hsteps (.start ctx pool)) h.placed hpc hrange
  exact ⟨code, by rw [emitMethod, runWith_eq h.runs, hcode]⟩

/-- Wherever control arrives in the code of a method, the stack is safe. -/
def StackSafe (pool : ConstantPool) (code : EmittedCode) : Prop :=
  ∃ decoded, Instruction.decode code.code = .ok decoded ∧
    (∀ source ∈ decoded, ∀ target ∈ source.2.labels, ∃ i, (target, i) ∈ decoded) ∧
    ∀ pc height, Verifier.Arrives pool decoded Verifier.height 0 pc height →
      Verifier.SafeAt pool code decoded pc height

/-- Code that stays within the range of jumps does not need many slots. -/
theorem Finished.stackSafe {code : EmittedCode} (h : Finished ctx body pool)
    (hbody : TypedBody .width ctx body) (hpc : (emitterOf ctx body pool).pc ≤ 32767)
    (hlocals : (emitterOf ctx body pool).maxLocals ≤ 65535)
    (hpool : (emitMethod ctx body pool).2.Indexable)
    (hcode : (emitMethod ctx body pool).1 = .ok code) :
    StackSafe (emitMethod ctx body pool).2 code := by
  obtain ⟨f, states, hrun, hfinal, hexplained⟩ :=
    exists_explained hbody hcode fun f hrun _ => eq_emitterOf hrun ▸ hlocals
  obtain rfl := eq_emitterOf hrun
  have hstack : (emitterOf ctx body pool).maxStack ≤ 65535 :=
    Nat.le_trans h.maxStack (by omega)
  rw [hfinal] at hpool ⊢
  exact ⟨_, hexplained.decoded, fun source hsource target htarget =>
    hexplained.exists_target hsource htarget,
    fun pc height harrives => hexplained.safeAt hpool hstack hlocals harrives⟩

end Emit

end ClassSynth
