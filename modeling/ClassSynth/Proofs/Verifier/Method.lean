import ClassSynth.Proofs.Verifier.Annotation
import ClassSynth.Proofs.Verifier.Statements

/-!
# Typed methods

A method starts with a receiver and with parameters that hold values of their types. From there the
code of a typed body leads to its end by moves of the emitter, so the finished code is annotated
(`exists_explained`): for every offset it is known what the slots hold, as far as control gets
there.
-/

namespace ClassSynth

open Emit Emitter VerificationType

/-! ## The start of a method -/

theorem exists_slotsOfTypes (types : List TypeName) (pool : ConstantPool) :
    ∃ vts, ((MethodContext.slotsOfTypes types).run pool).1 = flat vts ∧
      pool.Grows ((MethodContext.slotsOfTypes types).run pool).2 ∧
      List.Forall₂ (Represents ((MethodContext.slotsOfTypes types).run pool).2) types vts := by
  induction types generalizing pool with
  | nil => exact ⟨[], rfl, .refl _, .nil⟩
  | cons t types ih =>
    obtain ⟨vts, hslots, hpool, hvts⟩ := ih ((verificationType t).run pool).2
    have hfirst := Represents.run t pool
    refine ⟨((verificationType t).run pool).1 :: vts, ?_,
      (settles_verificationType t pool).1.trans hpool, .cons (hfirst.grows hpool) hvts⟩
    rw [flat_cons, ← hslots]
    rfl

namespace VerificationType

/-- The value at a position stands behind the slots of the values before it. -/
theorem getElem?_flat_represents {pool : ConstantPool} {types : List TypeName}
    {vts : List VerificationType} (h : List.Forall₂ (Represents pool) types vts)
    (htypes : ∀ t ∈ types, t.isVoid = false) {k : Nat} {t : TypeName} (hk : types[k]? = some t) :
    ∃ vt, Represents pool t vt ∧ (flat vts)[totalSlots (types.take k)]? = some vt := by
  induction h generalizing k with
  | nil => cases hk
  | @cons u vt types vts hu _ ih =>
    cases k with
    | zero =>
      obtain rfl := Option.some.inj hk
      refine ⟨vt, hu, ?_⟩
      rw [flat_cons, slots]
      split_ifs <;> rfl
    | succ k =>
      obtain ⟨vt', hvt', hget⟩ := ih (fun t ht => htypes t (List.mem_cons_of_mem _ ht)) hk
      have hsize : vt.slots.length = u.slotSize := by
        rw [length_slots, isWide_of_kind? hu.kind?, ← ValueKind.slots_ofType
          (htypes u List.mem_cons_self), ValueKind.slots]
      have htotal : totalSlots ((u :: types).take (k + 1))
          = vt.slots.length + totalSlots (types.take k) := by
        rw [hsize]
        rfl
      refine ⟨vt', hvt', ?_⟩
      rw [flat_cons, htotal, List.getElem?_append_right (Nat.le_add_right _ _),
        Nat.add_sub_cancel_left, hget]

/-- A wide value ends within the slots. -/
theorem wide_le_length_flat {ts : List VerificationType} {j : Nat} {u : VerificationType}
    (h : (flat ts)[j]? = some u) (hwide : u.isWide = true) : j + 2 ≤ (flat ts).length := by
  induction ts generalizing j with
  | nil => cases h
  | cons t ts ih =>
    rw [flat_cons] at h
    rcases Nat.lt_or_ge j t.slots.length with hj | hj
    · rw [List.getElem?_append_left hj] at h
      rw [flat_cons, List.length_append]
      rw [slots] at h hj ⊢
      split_ifs at h hj ⊢ with ht
      · cases j with
        | zero => exact Nat.le_add_right 2 _
        | succ j =>
          obtain rfl : u = .top := List.mem_singleton.mp (List.mem_of_getElem? (i := j) h)
          cases hwide
      · obtain rfl : u = t := List.mem_singleton.mp (List.mem_of_getElem? h)
        exact absurd hwide ht
    · rw [List.getElem?_append_right hj] at h
      have hle := ih h
      rw [flat_cons, List.length_append]
      omega

end VerificationType

namespace Emitter

/-- What the local variables hold at the start of a method. -/
structure Starts (ctx : MethodContext) (e : Emitter) (receiver vts : List VerificationType) :
    Prop where
  locals : e.slots.locals = receiver ++ flat vts
  receiver : ctx.isStatic = true ∧ receiver = [] ∨
    ctx.isStatic = false ∧ ctx.isConstructor = true ∧ receiver = [.uninitializedThis] ∨
    ctx.isStatic = false ∧ ctx.isConstructor = false ∧ ∃ index, receiver = [.object index]
  params : List.Forall₂ (Represents e.pool) ctx.params vts

theorem exists_starts (ctx : MethodContext) (pool : ConstantPool) :
    ∃ receiver vts, Starts ctx (start ctx pool) receiver vts := by
  obtain ⟨vts, hslots, _, hvts⟩ := exists_slotsOfTypes ctx.params (ctx.entryReceiver.run pool).2
  refine ⟨(ctx.entryReceiver.run pool).1, vts, ?_, ?_, hvts⟩
  · rw [← hslots]
    rfl
  · rw [MethodContext.entryReceiver]
    cases ctx.isStatic with
    | true => exact .inl ⟨rfl, rfl⟩
    | false =>
      cases ctx.isConstructor with
      | true => exact .inr (.inl ⟨rfl, rfl, rfl⟩)
      | false => exact .inr (.inr ⟨rfl, rfl, _, rfl⟩)

namespace Starts

variable {p : Precision} {ctx : MethodContext} {usable : Bool} {e : Emitter}
  {receiver vts : List VerificationType}

theorem length_receiver (h : Starts ctx e receiver vts) : receiver.length = ctx.receiverSlots := by
  rw [MethodContext.receiverSlots]
  rcases h.receiver with ⟨hstatic, rfl⟩ | ⟨hstatic, _, rfl⟩ | ⟨hstatic, _, _, rfl⟩ <;>
    simp [hstatic]

/-- What stands in a slot: the receiver, a value of a parameter, or the rest of one. -/
theorem of_mem (h : Starts ctx e receiver vts) {u : VerificationType} (hu : u ∈ e.slots.locals) :
    u = .uninitializedThis ∧ ctx.isConstructor = true ∨ (∃ k, u.kind? = some k) ∨ u = .top := by
  rw [h.locals, List.mem_append] at hu
  rcases hu with hu | hu
  · rcases h.receiver with ⟨_, rfl⟩ | ⟨_, hconstructor, rfl⟩ | ⟨_, _, _, rfl⟩
    · cases hu
    · exact .inl ⟨List.mem_singleton.mp hu, hconstructor⟩
    · exact .inr (.inl ⟨.reference, by rw [List.mem_singleton.mp hu]; rfl⟩)
  · rcases mem_flat hu with hu | htop
    · obtain ⟨i, hi, rfl⟩ := List.mem_iff_getElem.mp hu
      have hi' : i < ctx.params.length := h.params.length_eq ▸ hi
      exact .inr (.inl ⟨_, (h.params.get hi' hi).kind?⟩)
    · exact .inr (.inr htop)

/-- Outside of constructors, a constructor was called on the receiver. -/
theorem constructed (h : Starts ctx e receiver vts) (hconstructor : ctx.isConstructor = false) :
    .uninitializedThis ∉ e.slots.locals := by
  intro hraw
  rcases h.of_mem hraw with ⟨_, htrue⟩ | ⟨k, hk⟩ | htop
  · rw [hconstructor] at htrue
    cases htrue
  · cases hk
  · cases htop

/-- The receiver is in the first slot. -/
theorem getElem?_zero (h : Starts ctx e receiver vts) (hstatic : ctx.isStatic = false) :
    e.slots.locals[0]? = receiver[0]? ∧ 0 < receiver.length := by
  have hpos : 0 < receiver.length := by
    rw [h.length_receiver, MethodContext.receiverSlots, if_neg (by simp [hstatic])]
    exact Nat.one_pos
  exact ⟨by rw [h.locals, List.getElem?_append_left hpos], hpos⟩

theorem getElem?_zero_constructor (h : Starts ctx e receiver vts) (hstatic : ctx.isStatic = false)
    (hconstructor : ctx.isConstructor = true) :
    e.slots.locals[0]? = some .uninitializedThis := by
  rw [(h.getElem?_zero hstatic).1]
  rcases h.receiver with ⟨htrue, _⟩ | ⟨_, _, rfl⟩ | ⟨_, hfalse, _⟩
  · rw [hstatic] at htrue
    cases htrue
  · rfl
  · rw [hconstructor] at hfalse
    cases hfalse

theorem length_locals (h : Starts ctx e receiver vts)
    (htypes : ∀ t ∈ ctx.params, t.isVoid = false) : e.slots.locals.length = ctx.entrySize := by
  have hsizes : (flat vts).length = totalSlots ctx.params := by
    have hholds : List.Forall₂ (fun vt k => Precision.width.Holds vt k) vts
        (ctx.params.map ValueKind.ofType) :=
      List.forall₂_map_right_iff.mpr (h.params.flip.imp fun _ _ hvt =>
        Precision.holds_of_represents hvt)
    rw [Precision.length_flat hholds, ValueKind.slotsOf_ofType htypes]
  rw [h.locals, List.length_append, h.length_receiver, hsizes, MethodContext.entrySize]

/-- A parameter holds a value of its type. -/
theorem holdsType (h : Starts ctx e receiver vts) (hparams : ∀ t ∈ ctx.params, p.inhabits t = true)
    (hmax : e.maxLocals = ctx.entrySize) {index slot : Nat} {t : TypeName}
    (hparam : ctx.paramSlot? index = some (slot, t)) : HoldsType p e t slot := by
  have htypes : ∀ t ∈ ctx.params, t.isVoid = false := fun t ht =>
    Precision.isVoid_of_inhabits (hparams t ht)
  refine ⟨?_, hmax ▸ MethodContext.paramSlot?_le hparam, fun _ => ?_⟩
  · obtain ⟨k, hk, _⟩ := MethodContext.of_paramSlot? hparam
    exact hparams t (List.mem_of_getElem? hk)
  · obtain ⟨k, hk, rfl⟩ := MethodContext.of_paramSlot? hparam
    obtain ⟨vt, hvt, hget⟩ := getElem?_flat_represents h.params htypes hk
    refine ⟨vt, hvt, ?_⟩
    rw [h.locals, 
      List.getElem?_append_right (by rw [h.length_receiver]; exact Nat.le_add_right _ _),
      h.length_receiver, Nat.add_sub_cancel_left, hget]

/-- Code for expressions may start. A constructor does not use its receiver yet. -/
theorem ready (h : Starts ctx e receiver vts) (hparams : ∀ t ∈ ctx.params, p.inhabits t = true)
    (hmax : e.maxLocals = ctx.entrySize) (hnamed : e.named = []) (hstack : e.slots.stack = [])
    (husable : p = .kind → usable = true → ctx.isConstructor = false) :
    Ready p ctx usable [] e where
  named := hnamed ▸ .nil
  params := fun index slot t hparam => h.holdsType hparams hmax hparam
  receiver := fun hstatic => by
    refine ⟨hmax ▸ MethodContext.entrySize_pos hstatic, ?_⟩
    rw [List.headD_eq_head?_getD, List.head?_eq_getElem?, (h.getElem?_zero hstatic).1]
    rcases h.receiver with ⟨_, rfl⟩ | ⟨_, _, rfl⟩ | ⟨_, _, _, rfl⟩ <;> rfl
  usable := fun hstatic hp husable' => by
    rw [(h.getElem?_zero hstatic).1]
    rcases h.receiver with ⟨htrue, _⟩ | ⟨_, hconstructor, _⟩ | ⟨_, _, index, rfl⟩
    · rw [hstatic] at htrue
      cases htrue
    · rw [husable hp husable'] at hconstructor
      cases hconstructor
    · exact ⟨index, rfl⟩
  built := fun offset hraw => by
    rcases h.of_mem hraw with ⟨hthis, _⟩ | ⟨k, hk⟩ | htop
    · cases hthis
    · cases hk
    · cases htop
  fresh := fun offset hraw => by
    rw [hstack] at hraw
    cases hraw

theorem laid (h : Starts ctx e receiver vts) (htypes : ∀ t ∈ ctx.params, t.isVoid = false)
    (hnext : e.nextLocal = ctx.entrySize) (hnamed : e.named = []) : Laid ctx e where
  order := hnamed ▸ .nil
  within := fun l hl => by
    rw [hnamed] at hl
    cases hl
  entry := Nat.le_of_eq hnext.symm
  wide := fun j u hj hwide => by
    refine ⟨?_, fun l hl => by rw [hnamed] at hl; cases hl⟩
    have hlength := h.length_locals htypes
    rw [h.locals] at hj hlength
    rcases Nat.lt_or_ge j receiver.length with hlt | hge
    · rw [List.getElem?_append_left hlt] at hj
      have hmem := List.mem_of_getElem? hj
      rcases h.receiver with ⟨_, rfl⟩ | ⟨_, _, rfl⟩ | ⟨_, _, _, rfl⟩
      · cases hmem
      · rw [List.mem_singleton.mp hmem] at hwide
        cases hwide
      · rw [List.mem_singleton.mp hmem] at hwide
        cases hwide
    · rw [List.getElem?_append_right hge] at hj
      have hle := wide_le_length_flat hj hwide
      rw [List.length_append] at hlength
      omega

end Starts

end Emitter

/-! ## The body of a method -/

namespace Emit

variable {p : Precision} {ctx : MethodContext} {pool : ConstantPool} {body : List Stmt}
  {e : Emitter} {u : Unit}

/-- The local variables at the start of a method, where their slots are numbers of 16 bits. -/
theorem exists_entered (pool : ConstantPool) (hparams : ∀ t ∈ ctx.params, p.inhabits t = true)
    (hroom : (start ctx pool).maxLocals ≤ 65535) :
    ∃ receiver vts, Starts ctx (start ctx pool) receiver vts ∧ Laid ctx (start ctx pool) ∧
      ∀ usable, (p = .kind → usable = true → ctx.isConstructor = false) →
        Ready p ctx usable [] (start ctx pool) := by
  obtain ⟨receiver, vts, hstarts⟩ := exists_starts ctx pool
  have htypes : ∀ t ∈ ctx.params, t.isVoid = false := fun t ht =>
    Precision.isVoid_of_inhabits (hparams t ht)
  have hentry : (start ctx pool).entry.length = ctx.entrySize :=
    MethodContext.length_entry htypes pool
  exact ⟨receiver, vts, hstarts, hstarts.laid htypes ((nextLocal_start hroom).trans hentry) rfl,
    fun usable husable => hstarts.ready hparams hentry rfl rfl husable⟩

/-- A constructor starts with the call of an inherited one. -/
theorem moves_constructor {owner : TypeName} {params : List TypeName} {args : List Expr}
    {rest : List Stmt} {after : TypeScope}
    (hentry : ∀ t ∈ ctx.params, Precision.kind.inhabits t = true)
    (hconstructor : ctx.isConstructor = true)
    (hparams : ∀ t ∈ params, Precision.kind.declares t = true)
    (hargs : Expr.allFit .kind ctx false [] (params.map .ofType) args = true)
    (hrest : Stmt.typesAfterAll? .kind ctx [] rest = some after)
    (hrun : Runs (stmts (.superInit owner params args :: rest)) ctx (start ctx pool) u e)
    (hsmall : e.Small) : Moves .kind (start ctx pool) e ∧ Rests .kind ctx after e := by
  have hto := advances_stmts (.superInit owner params args :: rest) 0 ctx _ _ e (Nat.zero_le _) hrun
  obtain ⟨receiver, vts, hstarts, hlaid, hready⟩ :=
    exists_entered pool hentry (hsmall.of_steps hto).locals
  rw [stmts] at hrun
  obtain ⟨_, e₀, hcheck, hrun⟩ := runs_bind.mp hrun
  obtain ⟨_, e₁, hinit, hstmts⟩ := runs_bind.mp hrun
  rw [checkReachable, runs_get_bind, runs_check] at hcheck
  rw [hcheck.2, stmt_superInit] at hinit
  have hsmall₁ := hsmall.of_steps (advances_stmts rest 0 ctx e₁ u e (Nat.zero_le _) hstmts)
  have hturns : Turns .kind ctx false [] 0 (do checkCount params args; exprs .value args) none []
      (params.map .ofType) :=
    (Turns.checkCount params args).bind fun _ => turns_exprs .kind ctx false [] args 0 hargs
  obtain ⟨hstatic, e₂, ys, pool₁, pool₂, i, index, hway⟩ :=
    exists_constructing (hready false nofun) rfl (fun hstatic _ =>
      ⟨_, hstarts.getElem?_zero_constructor hstatic hconstructor, .inr rfl⟩) hparams hturns hsmall₁
      hinit
  obtain ⟨hmoves, hrests⟩ := hway.constructed (hready false nofun) hlaid hstatic
    fun _ => hstarts.getElem?_zero_constructor hstatic hconstructor
  have hpassed := passed_stmts rest hrest hstmts hsmall hrests
  exact ⟨hmoves.trans hpassed.moves, hpassed.rests⟩

/-- The code of a typed body leads from the start of the method to a rest. -/
theorem moves_body (hbody : TypedBody p ctx body)
    (hrun : Runs (stmts body) ctx (start ctx pool) u e) (hsmall : e.Small) :
    Moves p (start ctx pool) e ∧ ∃ after, Rests p ctx after e := by
  have hto := advances_stmts body 0 ctx _ _ e (Nat.zero_le _) hrun
  have hscope := hbody.scope
  unfold bodyTypes? at hscope
  by_cases hbuilds : (p == .kind && ctx.isConstructor) = true
  · rw [if_pos hbuilds] at hscope
    simp only [Bool.and_eq_true, beq_iff_eq] at hbuilds
    obtain ⟨rfl, hconstructor⟩ := hbuilds
    split at hscope
    · split_ifs at hscope with hfits
      · obtain ⟨after, hrest⟩ := Option.isSome_iff_exists.mp hscope
        simp only [Bool.and_eq_true, List.all_eq_true] at hfits
        obtain ⟨hmoves, hrests⟩ := moves_constructor hbody.params hconstructor hfits.1 hfits.2 hrest
          hrun hsmall
        exact ⟨hmoves, after, hrests⟩
      · cases hscope
    · cases hscope
  · rw [if_neg hbuilds] at hscope
    obtain ⟨after, hafter⟩ := Option.isSome_iff_exists.mp hscope
    have hbuilt : p = .kind → ctx.isConstructor = false := fun hp => by simpa [hp] using hbuilds
    obtain ⟨receiver, vts, hstarts, hlaid, hready⟩ :=
      exists_entered pool hbody.params (hsmall.of_steps hto).locals
    have hrests : Rests p ctx [] (start ctx pool) :=
      { toReady := hready true fun hp _ => hbuilt hp
        toLaid := hlaid
        stack := rfl
        constructed := fun hp => hstarts.constructed (hbuilt hp) }
    have hpassed := passed_stmts body hafter hrun hsmall hrests
    exact ⟨hpassed.moves, after, hpassed.rests⟩

/-- The end of a method is a move, behind which nothing is reached. -/
theorem moves_endMethod {after : TypeScope} {f : Emitter} (hrests : Rests p ctx after e)
    (h : Runs endMethod ctx e u f) : Moves p e f ∧ f.reachable = false := by
  rcases runs_endMethod h with ⟨hreachable, rfl⟩ | ⟨_, _, rfl⟩
  · exact ⟨.refl, hreachable⟩
  · have hexit : Instruction.isUnconditionalExit ⟨Opcode.returnVoid, .empty⟩ = true := rfl
    refine ⟨.single (.act e ⟨Opcode.returnVoid, .empty⟩ (.takes [] []) e.slots e.maxStack
      e.maxLocals false (plain_simple rfl) (fun _ _ _ => rfl) ?_ (Nat.le_max_left _ _)
      (Nat.le_refl _)
      (Nat.zero_le _) (Nat.le_refl _) (by simp [hexit])), rfl⟩
    have hstack : e.slots.stack = flat ([] ++ []) := hrests.stack
    have hfits : Fits p e.pc (.takes [] []) e.slots { e.slots with stack := flat ([] ++ []) } :=
      .takes hstack .nil .nil
    rwa [← hstack] at hfits

/-! ## Finished methods -/

/-- Finished code with the states in front of its instructions. -/
structure Explained (p : Precision) (ctx : MethodContext) (pool : ConstantPool) (code : EmittedCode)
    (f : Emitter) (states : List (Option SlotState)) : Prop where
  annotated : Annotated p (start ctx pool).slots f states
  exited : f.reachable = false
  labels : ∀ info ∈ f.labels.toList, checkLabel info = .ok ()
  decoded : Instruction.decode code.code = .ok f.listing
  length : code.code.length = f.pc
  frames : code.frames = f.frames.reverse.map fun (pc, s) => s.toFrame pc
  maxStack : code.maxStack = f.maxStack.toUInt16
  maxLocals : code.maxLocals = f.maxLocals.toUInt16

/-- The code of a typed method is annotated. -/
theorem exists_explained {code : EmittedCode} (hbody : TypedBody p ctx body)
    (h : (emitMethod ctx body pool).1 = .ok code)
    (hlocals : ∀ f, Runs (do stmts body; endMethod) ctx (start ctx pool) () f → f.pc ≤ 65535 →
      f.maxLocals ≤ 65535) :
    ∃ f states, Runs (do stmts body; endMethod) ctx (start ctx pool) () f ∧
      (emitMethod ctx body pool).2 = f.pool ∧ Explained p ctx pool code f states := by
  obtain ⟨f, hrun, hfinish, hpool⟩ := of_runWith h
  obtain ⟨hlabels, hpc, bytes, hbytes, rfl⟩ := of_finish hfinish
  have hsmall : f.Small := ⟨hpc, hlocals f hrun hpc⟩
  obtain ⟨_, e, hstmts, hend⟩ := runs_bind.mp hrun
  have hto : Steps true 0 e f := by
    rcases runs_endMethod hend with ⟨_, rfl⟩ | ⟨_, _, rfl⟩
    · exact .refl
    · exact .single (.exit e ⟨Opcode.returnVoid, .empty⟩ e.slots (plain_simple rfl))
  obtain ⟨hmoves, after, hrests⟩ := moves_body hbody hstmts (hsmall.of_steps hto)
  obtain ⟨hlast, hexited⟩ := moves_endMethod hrests hend
  obtain ⟨states, hannotated⟩ := (Annotated.ofStart p ctx pool).moves (hmoves.trans hlast)
  have hdecode := Instruction.decode_encode hannotated.ordered.fits_resolvedCode hbytes
  rw [placed_resolvedCode] at hdecode
  exact ⟨f, states, hrun, hpool, hannotated, hexited, hlabels, hdecode,
    hannotated.ordered.length_of_encode hbytes, rfl, rfl, rfl⟩

/-- The state that is written in front of the instruction at an offset. -/
def Written (f : Emitter) (states : List (Option SlotState)) (pc : Nat) (s : SlotState) : Prop :=
  ∃ k, k < f.code.size ∧ pc = Instruction.offsetIn f.code.toList k ∧ states[k]? = some (some s)

theorem Written.unique {f : Emitter} {states : List (Option SlotState)} {pc : Nat}
    {s t : SlotState} (h : Written f states pc s) (h' : Written f states pc t) : s = t := by
  obtain ⟨k, hk, hpc, hs⟩ := h
  obtain ⟨m, hm, hpc', ht⟩ := h'
  obtain rfl := offset_inj hk hm (hpc.symm.trans hpc')
  exact Option.some.inj (Option.some.inj (hs.symm.trans ht))

/-- A pass over code that follows the written states: where an instruction leads from one state to
another, the pass goes on. -/
structure Follows {σ : Type} (p : Precision) (transfer : Nat → Effect → σ → Option σ)
    (stands : SlotState → σ → Prop) : Prop where
  step : ∀ {pc effect s s' d}, Fits p pc effect s s' → stands s d →
    ∃ d', transfer pc effect d = some d' ∧ stands s' d'
  forget : ∀ {s t d}, s.Forgets t → stands s d → stands t d

namespace Explained

variable {code : EmittedCode} {f : Emitter} {states : List (Option SlotState)}

/-- Instructions stand before the end of the code. -/
theorem offset_lt (h : Explained p ctx pool code f states) {pc : Nat} {i : Instruction}
    (hi : (pc, i) ∈ f.listing) : pc < code.code.length := by
  obtain ⟨k, j, hj, rfl, _⟩ := mem_listing hi
  have hk : k < f.code.size := by simpa using (List.getElem?_eq_some_iff.mp hj).1
  rw [h.length, ← h.annotated.offset_size]
  exact Instruction.offsetIn_lt hk (by rw [Array.length_toList])

/-- A label that is jumped to stands in front of an instruction, where a frame is recorded. -/
theorem of_label (h : Explained p ctx pool code f states) {i : Instruction} {l : Label}
    (hi : i ∈ f.code.toList) (hl : l ∈ i.labels) :
    ∃ k, k < f.code.size ∧ f.targetOf l = Instruction.offsetIn f.code.toList k ∧
      ∃ fr ∈ f.frames, fr.1 = f.targetOf l := by
  obtain ⟨hstate, spot, hspot, hresolve⟩ :=
    h.annotated.ordered.resolveLabel_of_finish h.labels hi hl
  obtain ⟨t, ht⟩ := Option.ne_none_iff_exists'.mp hstate
  have htarget : f.targetOf l = Instruction.offsetIn f.code.toList spot.position := by
    rw [targetOf, hresolve]
  obtain ⟨_, fr, hfr, hpc⟩ := h.annotated.placed l spot t hspot ht
  exact ⟨spot.position, (h.annotated.ordered.exited h.exited).2.2 _
    (info_mem (lt_size_of_state hstate)) hstate spot hspot, htarget, fr, hfr,
    hpc.trans htarget.symm⟩

/-- Jumps lead to instructions. -/
theorem exists_target (h : Explained p ctx pool code f states) {pc target : Nat} {i : Instruction}
    (hi : (pc, i) ∈ f.listing) (htarget : target ∈ i.labels) : ∃ j, (target, j) ∈ f.listing := by
  obtain ⟨k, j, hj, rfl, rfl⟩ := mem_listing hi
  rw [Instruction.labels_mapLabels] at htarget
  obtain ⟨l, hl, rfl⟩ := List.mem_map.mp htarget
  obtain ⟨m, hm, hoffset, _⟩ := h.of_label (List.mem_of_getElem? hj) hl
  obtain ⟨j', hj'⟩ : ∃ j', f.code.toList[m]? = some j' :=
    ⟨_, List.getElem?_eq_getElem (by simpa using hm)⟩
  exact ⟨_, hoffset ▸ mem_listing_of_getElem? hj'⟩

/-- Where a frame is recorded, its state is the written one. -/
theorem written_of_frame (h : Explained p ctx pool code f states) {fr : FrameState}
    (hfr : fr ∈ code.frames) : ∃ s, Written f states fr.pc s ∧ fr = s.toFrame fr.pc := by
  rw [h.frames] at hfr
  obtain ⟨⟨pc, s⟩, hmem, rfl⟩ := List.mem_map.mp hfr
  obtain ⟨l, spot, hspot, hstate, hpc, hget⟩ := h.annotated.frames _ (List.mem_reverse.mp hmem)
  have hk : spot.position < f.code.size := (h.annotated.ordered.exited h.exited).2.2 _
    (info_mem (lt_size_of_state hstate)) hstate spot hspot
  rw [trail, List.getElem?_append_left (h.annotated.length ▸ hk)] at hget
  exact ⟨s, ⟨spot.position, hk, hpc, hget⟩, rfl⟩

/-- Frames are recorded where some jump leads, and nowhere else. -/
theorem exists_frame_iff (h : Explained p ctx pool code f states) (pc : Nat) :
    (∃ fr ∈ code.frames, fr.pc = pc) ↔ ∃ source ∈ f.listing, pc ∈ source.2.labels := by
  constructor
  · rintro ⟨fr, hfr, rfl⟩
    rw [h.frames] at hfr
    obtain ⟨⟨pc, s⟩, hmem, rfl⟩ := List.mem_map.mp hfr
    obtain ⟨l, spot, hspot, hstate, hpc, _⟩ := h.annotated.frames _ (List.mem_reverse.mp hmem)
    obtain ⟨t, ht⟩ := Option.ne_none_iff_exists'.mp hstate
    obtain ⟨_, _, i, hi, hl⟩ := h.annotated.jumped l t ht
    obtain ⟨_, spot', hspot', hresolve⟩ :=
      h.annotated.ordered.resolveLabel_of_finish h.labels hi hl
    obtain rfl : spot = spot' := Option.some.inj (hspot.symm.trans hspot')
    obtain ⟨k, hk⟩ := List.mem_iff_getElem?.mp hi
    refine ⟨_, mem_listing_of_getElem? hk, ?_⟩
    rw [Instruction.labels_mapLabels]
    refine List.mem_map.mpr ⟨l, hl, ?_⟩
    rw [targetOf, hresolve]
    exact hpc.symm
  · rintro ⟨⟨source, i⟩, hi, hpc⟩
    obtain ⟨k, j, hj, rfl, rfl⟩ := mem_listing hi
    rw [Instruction.labels_mapLabels] at hpc
    obtain ⟨l, hl, rfl⟩ := List.mem_map.mp hpc
    obtain ⟨_, _, _, ⟨target, s⟩, hfr, htarget⟩ := h.of_label (List.mem_of_getElem? hj) hl
    refine ⟨s.toFrame target, ?_, htarget⟩
    rw [h.frames]
    exact List.mem_map.mpr ⟨(target, s), List.mem_reverse.mpr hfr, rfl⟩

theorem valued (h : Explained p ctx pool code f states) {pc : Nat} {s : SlotState}
    (hs : Written f states pc s) : s.Valued ∧ s.stack.length ≤ f.maxStack := by
  obtain ⟨k, _, _, hget⟩ := hs
  exact h.annotated.bounds s (List.mem_append_left _ (List.mem_of_getElem? hget))

variable {σ : Type} {transfer : Nat → Effect → σ → Option σ} {stands : SlotState → σ → Prop}
  {entry d : σ} {pc : Nat}

/-- A pass that follows the written states arrives with what they stand for, and goes on from there
with the effect of an instruction. -/
theorem of_arrives (h : Explained p ctx pool code f states) (hpool : f.pool.Indexable)
    (hfollows : Follows p transfer stands) (hentry : stands (start ctx pool).slots entry)
    (harrives : Verifier.Arrives f.pool f.listing transfer entry pc d) :
    ∃ s, Written f states pc s ∧ stands s d ∧ ∃ i effect d', (pc, i) ∈ f.listing ∧
      i.effect? f.pool = some effect ∧ transfer pc effect d = some d' ∧
      effect.localsEnd ≤ f.maxLocals := by
  have hstep : ∀ pc effect s s' d d', Fits p pc effect s s' → stands s d →
      transfer pc effect d = some d' → stands s' d' := by
    intro pc effect s s' d d' hfits hs hd'
    obtain ⟨d'', hd'', hs'⟩ := hfollows.step hfits hs
    obtain rfl : d' = d'' := Option.some.inj (hd'.symm.trans hd'')
    exact hs'
  have hforget : ∀ s t d, s.Forgets t → stands s d → stands t d := fun _ _ _ => hfollows.forget
  obtain ⟨k, i, s, hat⟩ :=
    h.annotated.of_arrives h.exited h.labels hpool hforget hstep hentry harrives
  have hk : k < f.code.size := by simpa using (List.getElem?_eq_some_iff.mp hat.instruction).1
  obtain ⟨effect, s', haccounts⟩ := h.annotated.flow k i s hat.instruction hat.state
  obtain ⟨d', hd', _⟩ := hfollows.step haccounts.fits hat.stands
  refine ⟨s, ⟨k, hk, hat.offset, hat.state⟩, hat.stands, i.mapLabels f.targetOf, effect, d',
    hat.offset ▸ mem_listing_of_getElem? hat.instruction, ?_, hat.offset ▸ hd', haccounts.locals⟩
  rw [Instruction.effect?_mapLabels]
  exact haccounts.means _ (ConstantPool.Grows.refl _) hpool

end Explained

end Emit

end ClassSynth
