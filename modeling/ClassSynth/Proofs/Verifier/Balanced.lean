import ClassSynth.Proofs.Emit.Change
import ClassSynth.Proofs.Emit.Throughout
import ClassSynth.Proofs.Verifier.Halves

/-!
# The emitter between two steps

The emitter is balanced if the values on its stack take known numbers of slots, the state at each
label is one that the stack is known for, and all states are clear of variables that start inside a
wide value (`Balanced`). Then all states that it records are whole (`Balanced.whole`). Each
elementary step of lowering leads from balanced states to balanced states, as far as it does not
fail; a failure leaves whole states behind. -/

namespace ClassSynth

open Emit Emitter VerificationType

namespace Emitter

/-- The states that the emitter holds: the one it is in, those that wait at labels, and those of
frames. -/
inductive Records (e : Emitter) : SlotState → Prop
  | now : Records e e.slots
  | label {l : Label} {s : SlotState} (h : (e.info l).state? = some s) : Records e s
  | frame {f : Nat × SlotState} (h : f ∈ e.frames) : Records e f.2

/-- Every wide value in the states of the emitter has both its slots. -/
def Whole (e : Emitter) : Prop :=
  ∀ s, e.Records s → s.Whole

end Emitter

/-- How many slots the values on the stack take where control gets to a label. -/
abbrev Expected := Label → Option (List Nat)

/-- What is known of the emitter between two steps: the values on the stack take the given numbers
of slots, also in the states at the labels that are known. -/
structure Balanced (ctx : MethodContext) (known : Expected) (vars : List NamedLocal) (next : Nat)
    (sizes : List Nat) (e : Emitter) : Prop where
  named : e.named = vars
  nextLocal : e.nextLocal = next
  locals : Clear ctx vars next e.slots.locals
  stack : Sized sizes e.slots.stack
  labels : ∀ l s, (e.info l).state? = some s → Clear ctx vars next s.locals ∧ Paired s.stack
  known : ∀ l m, known l = some m → l < e.labels.size ∧
    ∀ s, (e.info l).state? = some s → Sized m s.stack
  frames : ∀ f ∈ e.frames, f.2.Whole
  entry : Paired e.entry

/-- Apart from the slots, the states that matter are the same. -/
structure Emitter.Steady (e e' : Emitter) : Prop where
  named : e'.named = e.named
  nextLocal : e'.nextLocal = e.nextLocal
  labels : e'.labels = e.labels
  frames : e'.frames = e.frames
  entry : e'.entry = e.entry

namespace Balanced

variable {ctx : MethodContext} {known : Expected} {vars : List NamedLocal} {next : Nat}
  {sizes sizes' us m : List Nat} {e e' : Emitter} {l : Label}

theorem whole (h : Balanced ctx known vars next sizes e) : e.Whole := by
  rintro s (_ | hlabel | hframe)
  · exact ⟨h.locals.paired, h.stack.paired⟩
  · obtain ⟨hclear, hstack⟩ := h.labels _ s hlabel
    exact ⟨hclear.paired, hstack⟩
  · exact h.frames _ hframe

/-- Other slots, with the same labels and frames. -/
theorem with_slots (h : Balanced ctx known vars next sizes e) (hsteady : e.Steady e')
    (hlocals : Clear ctx vars next e'.slots.locals) (hstack : Sized sizes' e'.slots.stack) :
    Balanced ctx known vars next sizes' e' := by
  have hinfo : ∀ l, e'.info l = e.info l := fun l => by rw [info, hsteady.labels, info]
  exact
    { named := hsteady.named.trans h.named
      nextLocal := hsteady.nextLocal.trans h.nextLocal
      locals := hlocals
      stack := hstack
      labels := fun l s hs => h.labels l s (hinfo l ▸ hs)
      known := fun l m hm => by
        rw [hsteady.labels, hinfo]
        exact h.known l m hm
      frames := hsteady.frames ▸ h.frames
      entry := hsteady.entry ▸ h.entry }

theorem steady (h : Balanced ctx known vars next sizes e) (hsteady : e.Steady e')
    (hslots : e'.slots = e.slots) : Balanced ctx known vars next sizes e' :=
  h.with_slots hsteady (hslots ▸ h.locals) (hslots ▸ h.stack)

/-- Fewer labels may be known. -/
theorem forget {known' : Expected} (h : Balanced ctx known' vars next sizes e)
    (hknown : ∀ l m, known l = some m → known' l = some m) :
    Balanced ctx known vars next sizes e :=
  { h with known := fun l m hm => h.known l m (hknown l m hm) }

theorem append_zero :
    Balanced ctx known vars next (sizes ++ [0]) e ↔ Balanced ctx known vars next sizes e :=
  ⟨fun h => { h with stack := Sized.append_zero.mp h.stack },
    fun h => { h with stack := Sized.append_zero.mpr h.stack }⟩

/-- What is left when values are taken from the stack. -/
theorem popped (h : Balanced ctx known vars next (sizes ++ us) e) {s : SlotState}
    (hs : e.slots.pop? us.sum = some s) : Clear ctx vars next s.locals ∧ Sized sizes s.stack := by
  obtain ⟨_, rfl⟩ := pop?_eq_some.mp hs
  exact ⟨h.locals, h.stack.pop.2⟩

end Balanced

/-! ## Elementary steps -/

/-- From balanced states the step leads to balanced states with other values on the stack. -/
def Carries {α : Type} (ctx : MethodContext) (known : Expected) (vars : List NamedLocal)
    (next : Nat) (sizes : List Nat) (x : Emit α) (sizes' : List Nat) : Prop :=
  Works Whole ctx (Balanced ctx known vars next sizes) x
    fun _ => Balanced ctx known vars next sizes'

section

variable {α : Type} {ctx : MethodContext} {known : Expected} {vars : List NamedLocal} {next : Nat}
  {sizes us m : List Nat}

/-- A step that cannot fail carries if it does where it succeeds. -/
theorem Carries.of_elementary {x : Emit α} {sizes' : List Nat} (hx : Elementary x)
    (hruns : ∀ e a e', Balanced ctx known vars next sizes e → Runs x ctx e a e' →
      Balanced ctx known vars next sizes' e')
    (hfails : ∀ e e', Balanced ctx known vars next sizes e → Fails x ctx e e' → e'.Whole) :
    Carries ctx known vars next sizes x sizes' :=
  Works.of_elementary hx (fun _ => Balanced.whole) hruns (fun _ _ => Balanced.whole) hfails

theorem carries_instruction (opcode : UInt8) (operand : Operand) :
    Carries ctx known vars next sizes (instruction opcode operand) sizes :=
  .of_elementary (.instruction opcode operand)
    (fun _ _ _ he h => runs_instruction.mp h ▸ he.steady ⟨rfl, rfl, rfl, rfl, rfl⟩ rfl)
    fun _ _ _ h => absurd h not_fails_modify

theorem carries_addConstants (step : ConstantPool.Adding α) :
    Carries ctx known vars next sizes (addConstants step) sizes :=
  .of_elementary (.addConstants step)
    (fun _ _ _ he h => (runs_addConstants.mp h).2 ▸ he.steady ⟨rfl, rfl, rfl, rfl, rfl⟩ rfl)
    fun _ _ _ h => absurd h not_fails_modifyGet

theorem carries_push (t : VerificationType) :
    Carries ctx known vars next sizes (push t) (sizes ++ [t.slots.length]) :=
  .of_elementary (.push t)
    (fun _ _ _ he h => runs_push.mp h ▸
      he.with_slots ⟨rfl, rfl, rfl, rfl, rfl⟩ he.locals (he.stack.push t))
    fun _ _ _ h => absurd h not_fails_modify

theorem carries_pop {n : Nat} (hn : us.sum = n) :
    Carries ctx known vars next (sizes ++ us) (pop n) sizes := by
  subst hn
  refine .of_elementary (.pop _) (fun e _ e' he h => ?_) fun e e' he h => ?_
  · obtain ⟨s, hs, rfl⟩ := runs_pop.mp h
    obtain ⟨hlocals, hstack⟩ := he.popped hs
    exact he.with_slots ⟨rfl, rfl, rfl, rfl, rfl⟩ hlocals hstack
  · rw [h.eq_of_pop]
    exact he.whole

theorem carries_replaceAll {old new : VerificationType} (hold : old.isWide = false)
    (htop : old ≠ .top) (hnew : new.isWide = false) :
    Carries ctx known vars next sizes (replaceAll old new) sizes :=
  .of_elementary (.replaceAll old new)
    (fun _ _ _ he h => runs_replaceAll.mp h ▸
      he.with_slots ⟨rfl, rfl, rfl, rfl, rfl⟩
        (he.locals.of_alike (alike_replace hold htop hnew _))
        (he.stack.of_alike (alike_replace hold htop hnew _)))
    fun _ _ _ h => absurd h not_fails_modify

theorem carries_endOfFlow : Carries ctx known vars next sizes endOfFlow sizes :=
  .of_elementary .endOfFlow
    (fun _ _ _ he h => runs_endOfFlow.mp h ▸ he.steady ⟨rfl, rfl, rfl, rfl, rfl⟩ rfl)
    fun _ _ _ h => absurd h not_fails_modify

/-- A variable gets a value of its type. -/
theorem carries_setLocal (hvars : Allotted ctx vars next) {l : NamedLocal} (hl : l ∈ vars)
    {vt : VerificationType} (hsize : vt.slots.length = l.type.slotSize) :
    Carries ctx known vars next sizes (setLocal l.slot vt) sizes :=
  .of_elementary (.setLocal l.slot vt)
    (fun _ _ _ he h => runs_setLocal.mp h ▸
      he.with_slots ⟨rfl, rfl, rfl, rfl, rfl⟩ (he.locals.store hvars hl hsize) he.stack)
    fun _ _ _ h => absurd h not_fails_modify

/-- A new variable takes the next slots. -/
theorem works_declare (name : String) (t : TypeName) :
    Works Whole ctx (Balanced ctx known vars next sizes) (declare name t) fun slot e =>
      slot = next ∧
        Balanced ctx known ({ name, slot := next, type := t } :: vars) (next + t.slotSize) sizes
          e := by
  refine .of_elementary (.declare name t) (fun _ => Balanced.whole) (fun e slot e' he h => ?_)
    (fun _ _ he => he.2.whole) fun _ _ _ h => absurd h not_fails_modifyGet
  obtain ⟨rfl, rfl⟩ := runs_modifyGet.mp h
  refine ⟨he.nextLocal, ?_⟩
  exact
    { named := by rw [he.named, he.nextLocal]
      nextLocal := by rw [he.nextLocal]
      locals := he.locals.declare name t
      stack := he.stack
      labels := fun l s hs => (he.labels l s hs).imp_left fun hclear => hclear.declare name t
      known := he.known
      frames := he.frames
      entry := he.entry }

/-! ### Labels -/

/-- A new label is not known yet; any stack may be expected there. -/
theorem works_newLabel (m : List Nat) :
    Works Whole ctx (Balanced ctx known vars next sizes) newLabel fun l e =>
      (∀ l' m', known l' = some m' → l' ≠ l) ∧
        Balanced ctx (Function.update known l (some m)) vars next sizes e := by
  refine .of_elementary .newLabel (fun _ => Balanced.whole) (fun e l e' he h => ?_)
    (fun _ _ he => he.2.whole) fun _ _ _ h => absurd h not_fails_modifyGet
  obtain ⟨rfl, rfl⟩ := runs_newLabel.mp h
  have hinfo := info_push e
  refine ⟨fun l' m' hm' => Nat.ne_of_lt (he.known l' m' hm').1, ?_⟩
  refine { he with labels := fun l s hs => he.labels l s (hinfo l ▸ hs), known := ?_ }
  intro l' m' hm'
  rw [hinfo, Array.size_push]
  by_cases hl' : l' = e.labels.size
  · subst hl'
    refine ⟨Nat.lt_succ_self _, fun s hs => ?_⟩
    rw [info_of_le (Nat.le_refl _)] at hs
    cases hs
  · rw [Function.update_of_ne hl'] at hm'
    obtain ⟨hlt, hstate⟩ := he.known l' m' hm'
    exact ⟨Nat.lt_succ_of_lt hlt, hstate⟩

/-- The state that a jump hands to its label. -/
theorem Balanced.joined {l : Label} {e : Emitter} {s joint : SlotState}
    (he : Balanced ctx known vars next sizes e) (hl : known l = some m)
    (hlocals : Clear ctx vars next s.locals) (hstack : Sized m s.stack)
    (h : Emit.joined (e.info l) s = .ok joint) :
    Clear ctx vars next joint.locals ∧ Sized m joint.stack := by
  unfold Emit.joined at h
  cases hstate : (e.info l).state? with
  | none =>
    rw [hstate] at h
    obtain rfl := Except.ok.inj h
    exact ⟨hlocals, hstack⟩
  | some jumped =>
    rw [hstate] at h
    obtain ⟨halike, hmerged⟩ := of_merge h
    exact ⟨hmerged ▸ (he.labels l jumped hstate).1.merge hlocals,
      ((he.known l m hl).2 jumped hstate).of_alike halike⟩

/-- A jump to a label that the rest of the stack is expected at. -/
theorem carries_branch {n : Nat} (opcode : UInt8) {l : Label} (hl : known l = some sizes)
    (hn : us.sum = n) : Carries ctx known vars next (sizes ++ us) (branch opcode l n) sizes := by
  subst hn
  refine .of_elementary (.branch opcode l _) (fun e _ e' he h => ?_) fun e e' he h => ?_
  · obtain ⟨s, joint, hs, hjoint, rfl⟩ := runs_branch.mp h
    obtain ⟨hlocals, hstack⟩ := he.popped hs
    obtain ⟨hjointLocals, hjointStack⟩ := he.joined hl hlocals hstack hjoint
    have hlt := (he.known l sizes hl).1
    have hinfo : ∀ l', ((jumpTo { e with slots := s } opcode l joint).info l').state?
        = if l = l' then some joint else (e.info l').state? := by
      intro l'
      split_ifs with hll'
      · subst hll'
        exact state_jumpTo _ opcode joint hlt
      · rw [info, jumpTo, getD_setIfInBounds, if_neg fun h => hll' h.1, ← info]
        rfl
    exact
      { named := he.named
        nextLocal := he.nextLocal
        locals := hlocals
        stack := hstack
        labels := fun l' s' hs' => by
          rw [hinfo] at hs'
          split_ifs at hs'
          · obtain rfl := Option.some.inj hs'
            exact ⟨hjointLocals, hjointStack.paired⟩
          · exact he.labels l' s' hs'
        known := fun l' m' hm' => by
          obtain ⟨hlt', hstate⟩ := he.known l' m' hm'
          refine ⟨by simpa [jumpTo] using hlt', fun s' hs' => ?_⟩
          rw [hinfo] at hs'
          split_ifs at hs' with hll'
          · subst hll'
            obtain rfl := Option.some.inj hs'
            obtain rfl := Option.some.inj (hl.symm.trans hm')
            exact hjointStack
          · exact hstate s' hs'
        frames := he.frames
        entry := he.entry }
  · rcases h.of_branch with rfl | ⟨s, hs, rfl⟩
    · exact he.whole
    · obtain ⟨hlocals, hstack⟩ := he.popped hs
      have hleft : Balanced ctx known vars next sizes
          (({ e with slots := s } : Emitter).append ⟨opcode, .branch l⟩) :=
        he.with_slots ⟨rfl, rfl, rfl, rfl, rfl⟩ hlocals hstack
      exact hleft.whole

/-- Placing a label leaves the states at labels as they are. -/
theorem Balanced.placed {e : Emitter} (he : Balanced ctx known vars next sizes e) (l : Label) :
    Balanced ctx known vars next sizes (Emit.placed e l) :=
  { he with
    labels := fun l' s hs => he.labels l' s (state_placed e l l' ▸ hs)
    known := fun l' m' hm' => by
      rw [state_placed]
      exact ⟨by simpa [Emit.placed] using (he.known l' m' hm').1, (he.known l' m' hm').2⟩ }

theorem mem_recordFrame {frames : List (Nat × SlotState)} {pc : Nat} {s : SlotState}
    {f : Nat × SlotState} (h : f ∈ recordFrame frames pc s) : f = (pc, s) ∨ f ∈ frames := by
  unfold recordFrame at h
  split at h
  · split_ifs at h
    · exact (List.mem_cons.mp h).imp_right (List.mem_cons_of_mem _)
    · exact List.mem_cons.mp h
  · exact .inl (List.mem_singleton.mp h)

/-- A state that is taken up at a label. -/
theorem Balanced.joinAt {e : Emitter} {l : Label} {s : SlotState} {sizes' : List Nat}
    (he : Balanced ctx known vars next sizes e) (hlocals : Clear ctx vars next s.locals)
    (hstack : Sized sizes' s.stack) : Balanced ctx known vars next sizes' (Emit.joinAt e l s) :=
  { he.placed l with
    locals := hlocals
    stack := hstack
    frames := fun f hf => by
      rcases mem_recordFrame hf with rfl | hold
      · exact ⟨hlocals.paired, hstack.paired⟩
      · exact he.frames f hold }

/-- Where a label is placed that a stack is expected at: nothing jumped there; or what is known
before it goes on, merged with the jumps; or only jumps lead there. -/
theorem Balanced.of_place {e e' : Emitter} {l : Label} {u : Unit}
    (he : Balanced ctx known vars next sizes e) (hl : known l = some m)
    (h : Runs (place l) ctx e u e') :
    (e.info l).state? = none ∧ e' = Emit.placed e l ∧ Balanced ctx known vars next sizes e' ∨
      e.reachable = true ∧ e'.reachable = true ∧ Balanced ctx known vars next sizes e' ∨
      e.reachable = false ∧ e'.reachable = true ∧ Balanced ctx known vars next m e' := by
  rcases runs_place.mp h with ⟨hnone, rfl⟩ | ⟨jumped, s, hstate, harriving, rfl⟩
  · exact .inl ⟨hnone, rfl, he.placed l⟩
  have hjumped := (he.labels l jumped hstate).1
  unfold arriving at harriving
  cases hreachable : e.reachable with
  | true =>
    rw [hreachable, if_pos rfl] at harriving
    obtain ⟨halike, hmerged⟩ := of_merge harriving
    exact .inr (.inl ⟨rfl, rfl, he.joinAt (hmerged ▸ he.locals.merge hjumped)
      (he.stack.of_alike halike)⟩)
  | false =>
    rw [hreachable, if_neg Bool.false_ne_true] at harriving
    obtain rfl := Except.ok.inj harriving
    exact .inr (.inr ⟨rfl, rfl, he.joinAt hjumped ((he.known l m hl).2 jumped hstate)⟩)

theorem Balanced.whole_of_fails_place {e e' : Emitter} {l : Label}
    (he : Balanced ctx known vars next sizes e) (h : Fails (place l) ctx e e') : e'.Whole := by
  rw [h.of_place]
  exact (he.placed l).whole

theorem carries_place {l : Label} (hl : known l = some sizes) :
    Carries ctx known vars next sizes (place l) sizes := by
  refine .of_elementary (.place l) (fun e _ e' he h => ?_) fun _ _ he h =>
    he.whole_of_fails_place h
  rcases he.of_place hl h with ⟨_, _, hbalanced⟩ | ⟨_, _, hbalanced⟩ | ⟨_, _, hbalanced⟩
  all_goals exact hbalanced

/-- The end of a fragment records the state at its start. -/
theorem works_endFragment :
    Works Whole ctx (Balanced ctx known vars next []) endFragment fun _ => Whole := by
  refine .of_elementary .endFragment (fun _ => Balanced.whole) (fun e u e' he h => ?_)
    (fun _ _ => id) fun _ _ _ h => absurd h not_fails_modify
  obtain rfl := runs_modify.mp h
  split_ifs
  · exact he.whole
  · rintro s (_ | hlabel | hframe)
    · exact he.whole _ .now
    · exact he.whole _ (.label hlabel)
    · rcases mem_recordFrame hframe with rfl | hold
      · exact ⟨he.entry, paired_nil⟩
      · exact he.frames _ hold

end

end ClassSynth
