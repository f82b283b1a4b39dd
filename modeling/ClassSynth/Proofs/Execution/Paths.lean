import ClassSynth.Proofs.Emit.Order
import ClassSynth.Proofs.Execution.Operations
import ClassSynth.Proofs.Instruction.Layout

/-!
# Paths through finished code

The machine runs the bytes of finished code, while lowering is known by the states of the emitter.
`stateAt f e` stands before the instruction that follows those of `e` in the code of `f`. For each
primitive step of emission that leads from `e` to `e'`, the machine gets from `e` to `e'`, or to the
place of the label that the step jumps to.
-/

namespace ClassSynth

/-- The offset of the instruction at a position of the emitted code. -/
def Emitter.offset (e : Emitter) (position : Nat) : Nat :=
  Instruction.offsetIn e.code.toList position

/-- The offset that a label stands for. -/
def Emitter.target (e : Emitter) (l : Label) : Nat :=
  e.offset (Emit.resolveLabel e.labels l)

namespace Machine

open Emit Emitter

/-- The bytes are the code of the emitter, and its constants can be looked up. -/
structure Finished (f : Emitter) (bytes : Bytes) : Prop where
  encoded : Instruction.encode (resolvedCode f) = .ok bytes
  fits : ∀ i ∈ f.code.toList, i.Fits
  indexable : f.pool.Indexable

/-- The machine in front of what follows the code of `e`. -/
def stateAt (f e : Emitter) (locals stack : List Value) : State :=
  ⟨f.offset e.code.size, locals, stack⟩

variable {f e e' : Emitter} {bytes : Bytes} {ctx : MethodContext} {u : Unit} {names : Bool}
  {floor : Nat} {locals stack : List Value}

/-! ## Single instructions -/

theorem step_of_getElem? (hf : Finished f bytes) {k : Nat} {i : Instruction}
    (hi : f.code.toList[k]? = some i) {op : Operation}
    (hop : operation? (i.mapLabels f.target) = some op) :
    step bytes f.pool ⟨f.offset k, locals, stack⟩
      = op.apply f.pool (f.offset (k + 1)) ⟨f.offset k, locals, stack⟩ := by
  have hfits : ∀ j ∈ resolvedCode f, j.Fits := by
    intro j hj
    obtain ⟨j', hj', rfl⟩ := List.mem_map.mp hj
    exact (hf.fits j' hj').mapLabels
  have hk : (resolvedCode f)[k]? = some (i.mapLabels (resolveLabel f.labels)) := by
    rw [resolvedCode, List.getElem?_map, hi]
    rfl
  have hoffset : Instruction.offsetIn (resolvedCode f) = f.offset :=
    Instruction.offsetIn_mapLabels _ _
  have hread := Instruction.read_of_encode hfits hf.encoded hk
  rw [hoffset, Instruction.mapLabels_mapLabels] at hread
  have htarget : f.offset ∘ resolveLabel f.labels = f.target := rfl
  rw [htarget] at hread
  simp only [step, hread, hop, Option.bind_some]

theorem getElem?_of_steps (h : Steps names floor e' f) {i : Instruction}
    (hcode : e'.code = e.code.push i) : f.code.toList[e.code.size]? = some i := by
  obtain ⟨more, hmore⟩ := h.code
  rw [hcode, Array.toList_push, List.append_assoc] at hmore
  rw [← hmore]
  simp

/-- The next instruction, if it has no labels. -/
theorem step_append (hf : Finished f bytes) {i : Instruction} (hplain : i.Plain)
    (hcode : e'.code = e.code.push i) (h : Steps names floor e' f) {op : Operation}
    (hop : operation? i = some op) :
    step bytes f.pool (stateAt f e locals stack)
      = op.apply f.pool (f.offset e'.code.size) (stateAt f e locals stack) := by
  have hsize : e'.code.size = e.code.size + 1 := by rw [hcode, Array.size_push]
  rw [hsize]
  exact step_of_getElem? hf (getElem?_of_steps h hcode) (by rw [hplain.mapLabels, hop])

/-! ## Values -/

/-- The code between the emitters is reached, and pushes a value. -/
structure Pushes (f : Emitter) (bytes : Bytes) (e e' : Emitter) (locals : List Value)
    (v : Value) : Prop where
  reachable : e'.reachable = true
  path : ∀ stack, Reaches bytes f.pool (stateAt f e locals stack) (stateAt f e' locals (v :: stack))

theorem pushes_of_push (hf : Finished f bytes) {i : Instruction} (hplain : i.Plain)
    (hcode : e'.code = e.code.push i) (h : Steps names floor e' f)
    (hreachable : e'.reachable = true) {v : Value} (hop : operation? i = some (.push v)) :
    Pushes f bytes e e' locals v where
  reachable := hreachable
  path := fun _ => .single (step_append hf hplain hcode h hop)

theorem pushes_pushInt (hf : Finished f bytes) {value : Int32}
    (hrun : Runs (pushInt value) ctx e u e')
    (h : Steps names floor e' f) (hreachable : e.reachable = true) :
    Pushes f bytes e e' locals (.int value) := by
  rcases runs_pushInt.mp hrun with ⟨i, hi, rfl⟩ | ⟨_, rfl⟩
  · exact pushes_of_push hf (plain_numberForm hi) rfl h hreachable (operation?_numberForm hi)
  · refine ⟨hreachable, fun stack => .single ?_⟩
    have hconstant := ConstantPool.get?_add h.pool hf.indexable
    refine (step_append (e := e) hf (plain_constantForm _) rfl h
      (operation?_constantForm _)).trans ?_
    simp only [Operation.apply, hconstant]
    rfl

theorem pushType_eq {t : TypeName} (hrun : Runs (pushType t) ctx e u e') :
    e'.code = e.code ∧ e'.reachable = e.reachable := by
  rcases runs_pushType.mp hrun with ⟨_, rfl⟩ | ⟨_, rfl⟩ <;> exact ⟨rfl, rfl⟩

theorem pushes_load (hf : Finished f bytes) {t : TypeName} {slot : Nat}
    (hrun : Runs (load t slot) ctx e u e') (h : Steps names floor e' f)
    (hreachable : e.reachable = true) (hknown : Known (ValueKind.ofType t)) {v : Value}
    (hv : locals[slot]? = some v) (hkind : v.kind = ValueKind.ofType t)
    (hslots : locals.length ≤ 65535) : Pushes f bytes e e' locals v := by
  unfold load at hrun
  obtain ⟨_, e₁, hload, htype⟩ := runs_bind.mp hrun
  obtain rfl := runs_slotInstruction.mp hload
  obtain ⟨hcode, hsame⟩ := pushType_eq htype
  have hslot : slot ≤ 65535 := by
    have hlt := (List.getElem?_eq_some_iff.mp hv).1
    omega
  refine ⟨hsame.trans hreachable, fun stack => .single ?_⟩
  refine (step_append (e := e) hf (plain_loadForm _ slot) hcode h
    (operation?_loadForm hknown hslot)).trans ?_
  simp only [Operation.apply, stateAt, hv, hkind, if_true]

/-! ## Jumps -/

/-- What a jump to a label leaves behind. -/
theorem of_branch {opcode : UInt8} {l pops : Nat}
    (hrun : Runs (branch opcode l pops) ctx e u e') :
    e'.code = e.code.push ⟨opcode, .branch l⟩ ∧
      e'.reachable = (e.reachable && opcode != Opcode.goto) ∧
      (l < e.labels.size → (e'.info l).state? ≠ none) := by
  obtain ⟨s, joint, _, _, rfl⟩ := runs_branch.mp hrun
  refine ⟨rfl, rfl, fun hl => ?_⟩
  have hstate := state_jumpTo { e with slots := s } opcode joint hl
  exact hstate ▸ Option.some_ne_none _

theorem step_branch (hf : Finished f bytes) {opcode : UInt8} {l : Label} {pops : Nat}
    (hrun : Runs (branch opcode l pops) ctx e u e') (h : Steps names floor e' f) {op : Operation}
    (hop : operation? ⟨opcode, .branch (f.target l)⟩ = some op) :
    step bytes f.pool (stateAt f e locals stack)
      = op.apply f.pool (f.offset e'.code.size) (stateAt f e locals stack) := by
  obtain ⟨hcode, _, _⟩ := of_branch hrun
  have hsize : e'.code.size = e.code.size + 1 := by rw [hcode, Array.size_push]
  rw [hsize]
  exact step_of_getElem? hf (getElem?_of_steps h hcode) hop

/-- A label stands where it was placed. -/
theorem resolveLabel_of_place {l : Nat} (hrun : Runs (place l) ctx e u e')
    (h : Steps names floor e' f) (hl : l < e.labels.size) :
    resolveLabel f.labels l = e.code.size := by
  have hplaced : (e'.info l).placement? = some ⟨e.pc, e.code.size⟩ := by
    rcases runs_place.mp hrun with ⟨_, rfl⟩ | ⟨_, _, _, _, rfl⟩
    · exact placement_placed hl
    · exact placement_placed hl
  have hplacement := h.placement hplaced
  have hlt : l < f.labels.size := by
    by_contra hge
    rw [info_of_le (Nat.le_of_not_lt hge)] at hplacement
    cases hplacement
  rw [resolveLabel, getElem?_info hlt, Option.bind_some, hplacement]
  rfl

/-- What placing a label leaves behind: it stands here, and what follows is reached if there is a
way to it. -/
theorem of_place {l : Nat} (hrun : Runs (place l) ctx e u e') (h : Steps names floor e' f)
    (hl : l < e.labels.size) :
    e'.code = e.code ∧ f.target l = f.offset e.code.size ∧
      (e.reachable = true ∨ (e.info l).state? ≠ none → e'.reachable = true) := by
  have htarget : f.target l = f.offset e.code.size := by
    rw [target, resolveLabel_of_place hrun h hl]
  rcases runs_place.mp hrun with ⟨hstate, rfl⟩ | ⟨_, _, _, _, rfl⟩
  · refine ⟨rfl, htarget, fun hway => ?_⟩
    rcases hway with hreachable | hjumped
    · exact hreachable
    · exact absurd hstate hjumped
  · exact ⟨rfl, htarget, fun _ => rfl⟩

/-- The code between the emitters takes operands from the stack and decides: if a condition holds,
what follows the code is reached, else the label. -/
structure Decides (f : Emitter) (bytes : Bytes) (e e' : Emitter) (locals : List Value) (l : Label)
    (operands : List Value) (holds : Bool) : Prop where
  holding : holds = true → e'.reachable = true ∧ ∀ stack, Reaches bytes f.pool
    (stateAt f e locals (operands ++ stack)) (stateAt f e' locals stack)
  failing : holds = false → (e'.info l).state? ≠ none ∧ ∀ stack, Reaches bytes f.pool
    (stateAt f e locals (operands ++ stack)) ⟨f.target l, locals, stack⟩

/-- A jump that is taken where the condition fails. -/
theorem decides_of_step {l pops : Nat} {opcode : UInt8} {operands : List Value}
    {holds : Bool} (hrun : Runs (branch opcode l pops) ctx e u e') (hl : l < e.labels.size)
    (hreachable : e.reachable = true) (hgoto : opcode ≠ Opcode.goto)
    (hstep : ∀ stack, step bytes f.pool (stateAt f e locals (operands ++ stack)) = some (.running
      ⟨if holds then f.offset e'.code.size else f.target l, locals, stack⟩)) :
    Decides f bytes e e' locals l operands holds := by
  obtain ⟨_, hsame, hstate⟩ := of_branch hrun
  constructor
  · intro hholds
    rw [hholds] at hstep
    exact ⟨by simp [hsame, hreachable, hgoto], fun stack => .single (hstep stack)⟩
  · intro hholds
    rw [hholds] at hstep
    exact ⟨hstate hl, fun stack => .single (hstep stack)⟩

/-- An operand is pushed before it is taken. -/
theorem Decides.after {e₁ : Emitter} {l : Label} {v : Value} {operands : List Value} {holds : Bool}
    (hpush : Pushes f bytes e e₁ locals v)
    (h : Decides f bytes e₁ e' locals l (v :: operands) holds) :
    Decides f bytes e e' locals l operands holds where
  holding := fun hholds => ⟨(h.holding hholds).1, fun stack =>
    (hpush.path (operands ++ stack)).trans ((h.holding hholds).2 stack)⟩
  failing := fun hholds => ⟨(h.failing hholds).1, fun stack =>
    (hpush.path (operands ++ stack)).trans ((h.failing hholds).2 stack)⟩

end Machine

end ClassSynth
