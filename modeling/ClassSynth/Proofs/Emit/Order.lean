import ClassSynth.Proofs.Emit.Steps
import ClassSynth.Proofs.Instruction.Layout

/-!
# Offsets of frames and labels

While code is emitted, frames are recorded at increasing offsets, after the start of the code and
not beyond what is there, and labels are placed at positions of instructions. Where nothing is
reached, an instruction follows every frame and every label that is jumped to. The code of a method
therefore has frames and jump targets strictly inside (`frames_of_emitMethod`,
`labels_of_emitMethod`).
-/

namespace ClassSynth

namespace Emitter

/-- The order of what is emitted. -/
structure Ordered (e : Emitter) : Prop where
  fits : ∀ i ∈ e.code.toList, i.Fits
  /-- The next offset follows the instructions. -/
  pc : e.pc = Instruction.endFrom 0 e.code.toList
  frames : e.frames.Pairwise fun a b => b.1 < a.1
  bounds : ∀ f ∈ e.frames, 0 < f.1 ∧ f.1 ≤ e.pc
  /-- Jumps are instructions. -/
  jumped : ∀ info ∈ e.labels.toList, info.state? ≠ none → 0 < e.pc
  placed : ∀ info ∈ e.labels.toList, ∀ p, info.placement? = some p → p.position ≤ e.code.size
  /-- Every label of an instruction is jumped to. -/
  known : ∀ i ∈ e.code.toList, ∀ l ∈ i.labels, ∃ info, e.labels[l]? = some info ∧
    info.state? ≠ none ∧ info.jumps ≠ []
  /-- Where nothing is reached, an instruction follows the frames and the labels. -/
  exited : e.reachable = false → 0 < e.pc ∧ (∀ f ∈ e.frames, f.1 < e.pc) ∧
    ∀ info ∈ e.labels.toList, info.state? ≠ none →
      ∀ p, info.placement? = some p → p.position < e.code.size

theorem lt_size_of_state {e : Emitter} {l : Nat} (h : (e.info l).state? ≠ none) :
    l < e.labels.size := by
  by_contra hl
  apply h
  rw [info, Array.getD_eq_getD_getElem?, Array.getElem?_eq_none (Nat.le_of_not_lt hl)]
  rfl

theorem getElem?_info {e : Emitter} {l : Nat} (hl : l < e.labels.size) :
    e.labels[l]? = some (e.info l) := by
  rw [info, Array.getD_eq_getD_getElem?, Array.getElem?_eq_getElem hl, Option.getD_some]

theorem info_mem {e : Emitter} {l : Nat} (hl : l < e.labels.size) :
    e.info l ∈ e.labels.toList :=
  List.mem_of_getElem? (by rw [Array.getElem?_toList, getElem?_info hl])

theorem mem_setIfInBounds {labels : Array LabelInfo} {l : Nat} {new info : LabelInfo}
    (h : info ∈ (labels.setIfInBounds l new).toList) : info ∈ labels.toList ∨ info = new := by
  rw [Array.toList_setIfInBounds] at h
  exact List.mem_or_eq_of_mem_set h

theorem recordFrame_ordered {frames : List (Nat × SlotState)} {pc : Nat} (s : SlotState)
    (hpairs : frames.Pairwise fun a b => b.1 < a.1) (hle : ∀ f ∈ frames, f.1 ≤ pc) :
    (Emit.recordFrame frames pc s).Pairwise (fun a b => b.1 < a.1) ∧
      ∀ f ∈ Emit.recordFrame frames pc s, f.1 = pc ∨ f ∈ frames := by
  cases frames with
  | nil => exact ⟨List.pairwise_singleton _ _, by simp [Emit.recordFrame]⟩
  | cons f rest =>
    obtain ⟨last, old⟩ := f
    obtain ⟨hlast, hrest⟩ := List.pairwise_cons.mp hpairs
    have hlastle : last ≤ pc := hle (last, old) List.mem_cons_self
    simp only [Emit.recordFrame]
    by_cases hsame : last = pc
    · rw [if_pos hsame]
      refine ⟨List.pairwise_cons.mpr ⟨fun b hb => hsame ▸ hlast b hb, hrest⟩, fun f hf => ?_⟩
      rcases List.mem_cons.mp hf with rfl | hf
      · exact .inl rfl
      · exact .inr (List.mem_cons_of_mem _ hf)
    · rw [if_neg hsame]
      have hlt : last < pc := Nat.lt_of_le_of_ne hlastle hsame
      refine ⟨List.pairwise_cons.mpr ⟨fun b hb => ?_, hpairs⟩, fun f hf => ?_⟩
      · rcases List.mem_cons.mp hb with rfl | hb
        · exact hlt
        · exact Nat.lt_trans (hlast b hb) hlt
      · rcases List.mem_cons.mp hf with rfl | hf
        · exact .inl rfl
        · exact .inr hf

namespace Ordered

variable {locals : Bool} {floor : Nat} {e e' : Emitter}

theorem pc_lt_append (e : Emitter) (i : Instruction) : e.pc < (e.append i).pc :=
  Nat.lt_add_of_pos_right (Instruction.sizeAt_pos e.pc i)

theorem pc_append (he : e.Ordered) (i : Instruction) :
    (e.append i).pc = Instruction.endFrom 0 (e.append i).code.toList := by
  simp only [append, Array.toList_push, Instruction.endFrom, List.foldl_append, List.foldl_cons,
    List.foldl_nil]
  rw [he.pc, Instruction.endFrom]

theorem bounds_append (he : e.Ordered) (i : Instruction) :
    ∀ f ∈ e.frames, 0 < f.1 ∧ f.1 < (e.append i).pc :=
  fun f hf => ⟨(he.bounds f hf).1, Nat.lt_of_le_of_lt (he.bounds f hf).2 (pc_lt_append e i)⟩

theorem placed_append (he : e.Ordered) (i : Instruction) :
    ∀ info ∈ e.labels.toList, ∀ p, info.placement? = some p →
      p.position < (e.append i).code.size := by
  intro info hinfo p hp
  rw [append, Array.size_push]
  exact Nat.lt_succ_of_le (he.placed info hinfo p hp)

theorem fits_append (he : e.Ordered) {i : Instruction} (h : i.Fits) :
    ∀ j ∈ (e.append i).code.toList, j.Fits := by
  intro j hj
  rw [append, Array.toList_push, List.mem_append, List.mem_singleton] at hj
  rcases hj with hj | rfl
  · exact he.fits j hj
  · exact h

theorem known_append (he : e.Ordered) {i : Instruction} (h : i.labels = []) :
    ∀ j ∈ (e.append i).code.toList, ∀ l ∈ j.labels, ∃ info, e.labels[l]? = some info ∧
      info.state? ≠ none ∧ info.jumps ≠ [] := by
  intro j hj l hl
  rw [append, Array.toList_push, List.mem_append, List.mem_singleton] at hj
  rcases hj with hj | rfl
  · exact he.known j hj l hl
  · rw [h] at hl
    cases hl

/-- An instruction without labels, and what follows it may be out of reach. -/
theorem append (he : e.Ordered) {i : Instruction} (h : i.Plain) (s : SlotState)
    (reachable : Bool) : Ordered { e.append i with slots := s, reachable } where
  fits := he.fits_append h.toFits
  pc := he.pc_append i
  frames := he.frames
  bounds := fun f hf => ⟨(he.bounds_append i f hf).1, Nat.le_of_lt (he.bounds_append i f hf).2⟩
  jumped := fun _ _ _ => Nat.zero_lt_of_lt (pc_lt_append e i)
  placed := fun info hinfo p hp => Nat.le_of_lt (he.placed_append i info hinfo p hp)
  known := he.known_append h.labels
  exited := fun _ => ⟨Nat.zero_lt_of_lt (pc_lt_append e i),
    fun f hf => (he.bounds_append i f hf).2,
    fun info hinfo _ p hp => he.placed_append i info hinfo p hp⟩

theorem newLabel (he : e.Ordered) : Ordered { e with labels := e.labels.push {} } where
  fits := he.fits
  pc := he.pc
  frames := he.frames
  bounds := he.bounds
  jumped := by
    intro info hinfo hstate
    rw [Array.toList_push, List.mem_append, List.mem_singleton] at hinfo
    rcases hinfo with hinfo | rfl
    · exact he.jumped info hinfo hstate
    · exact absurd rfl hstate
  placed := by
    intro info hinfo p hp
    rw [Array.toList_push, List.mem_append, List.mem_singleton] at hinfo
    rcases hinfo with hinfo | rfl
    · exact he.placed info hinfo p hp
    · cases hp
  known := by
    intro i hi l hl
    obtain ⟨info, hinfo, hknown⟩ := he.known i hi l hl
    refine ⟨info, ?_, hknown⟩
    obtain ⟨hlt, hinfo⟩ := Array.getElem?_eq_some_iff.mp hinfo
    rw [Array.getElem?_push_lt hlt, hinfo]
  exited := by
    intro hreachable
    obtain ⟨hpc, hframes, hlabels⟩ := he.exited hreachable
    refine ⟨hpc, hframes, fun info hinfo hstate p hp => ?_⟩
    rw [Array.toList_push, List.mem_append, List.mem_singleton] at hinfo
    rcases hinfo with hinfo | rfl
    · exact hlabels info hinfo hstate p hp
    · cases hp

theorem jumpTo (he : e.Ordered) {opcode : UInt8} (hopcode : Opcode.shape? opcode = some .branch)
    {l : Label} (s : SlotState) (hl : l < e.labels.size) :
    (Emit.jumpTo e opcode l s).Ordered where
  fits := he.fits_append ⟨hopcode, trivial⟩
  pc := he.pc_append _
  frames := he.frames
  bounds := by
    intro f hf
    have hbounds := he.bounds_append ⟨opcode, .branch l⟩ f hf
    exact ⟨hbounds.1, Nat.le_of_lt hbounds.2⟩
  jumped := fun _ _ _ => Nat.zero_lt_of_lt (pc_lt_append e ⟨opcode, .branch l⟩)
  placed := by
    intro info hinfo p hp
    rcases mem_setIfInBounds hinfo with hinfo | rfl
    · exact Nat.le_of_lt (he.placed_append ⟨opcode, .branch l⟩ info hinfo p hp)
    · exact Nat.le_of_lt (he.placed_append ⟨opcode, .branch l⟩ (e.info l) (info_mem hl) p hp)
  known := by
    intro i hi m hm
    simp only [Emit.jumpTo]
    rw [Array.getElem?_setIfInBounds]
    by_cases hlm : l = m
    · rw [if_pos hlm, if_pos hl]
      exact ⟨_, rfl, Option.some_ne_none _, List.cons_ne_nil _ _⟩
    · rw [if_neg hlm]
      simp only [Emit.jumpTo, Emitter.append, Array.toList_push, List.mem_append,
        List.mem_singleton] at hi
      rcases hi with hi | rfl
      · exact he.known i hi m hm
      · exact absurd (List.mem_singleton.mp hm).symm hlm
  exited := by
    intro _
    refine ⟨Nat.zero_lt_of_lt (pc_lt_append e ⟨opcode, .branch l⟩),
      fun f hf => (he.bounds_append ⟨opcode, .branch l⟩ f hf).2, ?_⟩
    intro info hinfo _ p hp
    rcases mem_setIfInBounds hinfo with hinfo | rfl
    · exact he.placed_append ⟨opcode, .branch l⟩ info hinfo p hp
    · exact he.placed_append ⟨opcode, .branch l⟩ (e.info l) (info_mem hl) p hp

theorem known_placed (he : e.Ordered) (l : Label) :
    ∀ i ∈ e.code.toList, ∀ m ∈ i.labels, ∃ info, (Emit.placed e l).labels[m]? = some info ∧
      info.state? ≠ none ∧ info.jumps ≠ [] := by
  intro i hi m hm
  obtain ⟨info, hinfo, hstate, hjumps⟩ := he.known i hi m hm
  have hlt := (Array.getElem?_eq_some_iff.mp hinfo).1
  simp only [Emit.placed]
  rw [Array.getElem?_setIfInBounds]
  by_cases hlm : l = m
  · subst hlm
    rw [getElem?_info hlt] at hinfo
    obtain rfl := Option.some.inj hinfo
    rw [if_pos rfl, if_pos hlt]
    exact ⟨_, rfl, hstate, hjumps⟩
  · rw [if_neg hlm]
    exact ⟨info, hinfo, hstate, hjumps⟩

theorem placed_placed (he : e.Ordered) (l : Label) :
    ∀ info ∈ (Emit.placed e l).labels.toList, ∀ p, info.placement? = some p →
      p.position ≤ e.code.size := by
  intro info hinfo p hp
  rcases mem_setIfInBounds hinfo with hinfo | rfl
  · exact he.placed info hinfo p hp
  · obtain rfl := Option.some.inj hp
    exact Nat.le_refl _

theorem place (he : e.Ordered) {l : Label} (h : (e.info l).state? = none) :
    (Emit.placed e l).Ordered where
  fits := he.fits
  pc := he.pc
  frames := he.frames
  bounds := he.bounds
  jumped := by
    intro info hinfo hstate
    rcases mem_setIfInBounds hinfo with hinfo | rfl
    · exact he.jumped info hinfo hstate
    · exact absurd h hstate
  placed := he.placed_placed l
  known := he.known_placed l
  exited := by
    intro hreachable
    obtain ⟨hpc, hframes, hlabels⟩ := he.exited hreachable
    refine ⟨hpc, hframes, fun info hinfo hstate => ?_⟩
    rcases mem_setIfInBounds hinfo with hinfo | rfl
    · exact hlabels info hinfo hstate
    · exact absurd h hstate

theorem joinAt (he : e.Ordered) {l : Label} (s : SlotState) (h : (e.info l).state? ≠ none) :
    (Emit.joinAt e l s).Ordered where
  fits := he.fits
  pc := he.pc
  frames := (recordFrame_ordered s he.frames fun f hf => (he.bounds f hf).2).1
  bounds := by
    intro f hf
    have hpc : 0 < e.pc := he.jumped _ (info_mem (lt_size_of_state h)) h
    rcases (recordFrame_ordered s he.frames fun f hf => (he.bounds f hf).2).2 f hf with hf | hf
    · exact ⟨hf ▸ hpc, Nat.le_of_eq hf⟩
    · exact he.bounds f hf
  jumped := by
    intro info hinfo hstate
    rcases mem_setIfInBounds hinfo with hinfo | rfl
    · exact he.jumped info hinfo hstate
    · exact he.jumped _ (info_mem (lt_size_of_state h)) h
  placed := he.placed_placed l
  known := he.known_placed l
  exited := fun hreachable => nomatch hreachable

/-- Each change of the emitter keeps the order. -/
theorem step (hstep : Step locals floor e e') (he : e.Ordered) : e'.Ordered := by
  cases hstep with
  | constants => exact { he with }
  | slots => exact { he with }
  | store => exact { he with }
  | named => exact { he with }
  | instruction i h => exact he.append h e.slots e.reachable
  | newLabel => exact he.newLabel
  | jump opcode l s hopcode h => exact he.jumpTo hopcode s h
  | place l _ _ h => exact he.place h
  | join l s _ _ h => exact he.joinAt s h
  | exit i s h => exact he.append h s false

theorem steps (hsteps : Steps locals floor e e') (he : e.Ordered) : e'.Ordered :=
  hsteps.invariant (fun _ _ hstep he => step hstep he) he

theorem start (ctx : MethodContext) (pool : ConstantPool) : (Emit.start ctx pool).Ordered where
  fits := fun _ hi => nomatch hi
  pc := rfl
  frames := List.Pairwise.nil
  bounds := fun _ hf => nomatch hf
  jumped := fun _ hinfo => nomatch hinfo
  placed := fun _ hinfo => nomatch hinfo
  known := fun _ hi => nomatch hi
  exited := fun hreachable => nomatch hreachable

/-- A label of an instruction stands where it was placed. -/
theorem resolveLabel_of_finish (he : e.Ordered)
    (hlabels : ∀ info ∈ e.labels.toList, Emit.checkLabel info = .ok ()) {i : Instruction}
    (hi : i ∈ e.code.toList) {l : Label} (hl : l ∈ i.labels) :
    (e.info l).state? ≠ none ∧ ∃ p, (e.info l).placement? = some p ∧
      Emit.resolveLabel e.labels l = p.position := by
  obtain ⟨info, hinfo, hstate, hjumps⟩ := he.known i hi l hl
  obtain rfl : info = e.info l := by
    rw [Emitter.info, Array.getD_eq_getD_getElem?, hinfo, Option.getD_some]
  have hmem : e.info l ∈ e.labels.toList :=
    List.mem_of_getElem? (by rw [Array.getElem?_toList, hinfo])
  have hcheck := hlabels (e.info l) hmem
  rw [Emit.checkLabel, if_neg (by simpa using hjumps)] at hcheck
  cases hplacement : (e.info l).placement? with
  | none =>
    rw [hplacement] at hcheck
    cases hcheck
  | some p =>
    refine ⟨hstate, p, rfl, ?_⟩
    rw [Emit.resolveLabel, hinfo, Option.bind_some, hplacement]
    rfl

theorem fits_resolvedCode (he : e.Ordered) : ∀ i ∈ Emit.resolvedCode e, i.Fits := by
  intro i hi
  obtain ⟨j, hj, rfl⟩ := List.mem_map.mp hi
  exact (he.fits j hj).mapLabels

theorem length_of_encode (he : e.Ordered) {bytes : Bytes}
    (h : Instruction.encode (Emit.resolvedCode e) = .ok bytes) : bytes.length = e.pc := by
  rw [Instruction.length_encode h, Instruction.offsetIn_length, he.pc,
    ← Instruction.offsetIn_length,
    ← Instruction.offsetIn_length, Emit.resolvedCode, Instruction.offsetIn_mapLabels,
    List.length_map]

/-- The jumps of emitted code lead to its instructions, or to its end if that is reached. -/
theorem labels_of_finish (he : e.Ordered)
    (hlabels : ∀ info ∈ e.labels.toList, Emit.checkLabel info = .ok ()) {i : Instruction}
    (hi : i ∈ Emit.resolvedCode e) {l : Label} (hl : l ∈ i.labels) :
    l ≤ (Emit.resolvedCode e).length ∧
      (e.reachable = false → l < (Emit.resolvedCode e).length) := by
  obtain ⟨j, hj, rfl⟩ := List.mem_map.mp hi
  rw [Instruction.labels_mapLabels] at hl
  obtain ⟨m, hm, rfl⟩ := List.mem_map.mp hl
  obtain ⟨hstate, p, hp, hposition⟩ := he.resolveLabel_of_finish hlabels hj hm
  have hinfo := info_mem (lt_size_of_state hstate)
  rw [hposition, Emit.resolvedCode, List.length_map, Array.length_toList]
  exact ⟨he.placed _ hinfo p hp, fun hreachable => (he.exited hreachable).2.2 _ hinfo hstate p hp⟩

/-- The frames of emitted code, in order. -/
theorem frames_of_finish (he : e.Ordered) {code : EmittedCode} (h : Emit.finish e = .ok code) :
    code.frames.Pairwise (·.pc < ·.pc) ∧
      ∀ f ∈ code.frames, 0 < f.pc ∧ f.pc ≤ code.code.length ∧
        (e.reachable = false → f.pc < code.code.length) := by
  obtain ⟨_, _, bytes, hbytes, rfl⟩ := Emit.of_finish h
  have hlen := he.length_of_encode hbytes
  constructor
  · rw [List.pairwise_map, List.pairwise_reverse]
    exact he.frames
  · intro f hf
    obtain ⟨⟨pc, s⟩, hmem, rfl⟩ := List.mem_map.mp hf
    have hmem := List.mem_reverse.mp hmem
    have hbounds := he.bounds (pc, s) hmem
    rw [hlen]
    exact ⟨hbounds.1, hbounds.2, fun hreachable => (he.exited hreachable).2.1 (pc, s) hmem⟩

/-- At the end of a fragment the code after it may be reached, if only by jumps. -/
theorem fragmentEnd (he : e.Ordered) :
    Ordered { Emit.fragmentEnd e with reachable := true } := by
  unfold Emit.fragmentEnd
  by_cases hreachable : e.reachable = true
  · rw [if_pos hreachable]
    exact { he with exited := fun h => nomatch h }
  · rw [if_neg hreachable]
    have hpc := (he.exited (Bool.eq_false_iff.mpr hreachable)).1
    obtain ⟨hpairs, hmem⟩ := recordFrame_ordered { locals := e.entry, stack := [] } he.frames
      fun f hf => (he.bounds f hf).2
    refine { he with frames := hpairs, bounds := fun f hf => ?_, exited := fun h => nomatch h }
    rcases hmem f hf with hf | hf
    · exact ⟨hf ▸ hpc, Nat.le_of_eq hf⟩
    · exact he.bounds f hf

end Ordered

end Emitter

namespace Emit

open Emitter

variable {ctx : MethodContext} {body : List Stmt} {pool : ConstantPool} {code : EmittedCode}

/-- The frames of a method stand in order between its first instruction and its end. -/
theorem frames_of_emitMethod (h : (emitMethod ctx body pool).1 = .ok code) :
    code.frames.Pairwise (·.pc < ·.pc) ∧
      ∀ f ∈ code.frames, 0 < f.pc ∧ f.pc < code.code.length := by
  obtain ⟨e, hsteps, hreachable, hfinish, _⟩ := of_emitMethod h
  have he := (Ordered.start ctx pool).steps hsteps
  obtain ⟨hpairs, hbounds⟩ := he.frames_of_finish hfinish
  exact ⟨hpairs, fun f hf => ⟨(hbounds f hf).1, (hbounds f hf).2.2 hreachable⟩⟩

/-- The frames of a fragment stand in order between its first instruction and what follows it. -/
theorem frames_of_emitFragment (h : (emitFragment ctx body pool).1 = .ok code) :
    code.frames.Pairwise (·.pc < ·.pc) ∧
      ∀ f ∈ code.frames, 0 < f.pc ∧ f.pc ≤ code.code.length := by
  obtain ⟨e, hsteps, hfinish, _⟩ := of_emitFragment h
  have he := ((Ordered.start ctx pool).steps hsteps).fragmentEnd
  have hfinish' : finish { fragmentEnd e with reachable := true } = .ok code := hfinish
  obtain ⟨hpairs, hbounds⟩ := he.frames_of_finish hfinish'
  exact ⟨hpairs, fun f hf => ⟨(hbounds f hf).1, (hbounds f hf).2.1⟩⟩

/-- The jumps of a method lead to its instructions. -/
theorem labels_of_emitMethod (h : (emitMethod ctx body pool).1 = .ok code) :
    ∃ is, Instruction.encode is = .ok code.code ∧ (∀ i ∈ is, i.Fits) ∧
      ∀ i ∈ is, ∀ l ∈ i.labels, l < is.length := by
  obtain ⟨e, hsteps, hreachable, hfinish, _⟩ := of_emitMethod h
  have he := (Ordered.start ctx pool).steps hsteps
  obtain ⟨hlabels, _, bytes, hbytes, rfl⟩ := of_finish hfinish
  exact ⟨resolvedCode e, hbytes, he.fits_resolvedCode, fun i hi l hl =>
    (he.labels_of_finish hlabels hi hl).2 hreachable⟩

/-- The code of a fragment is the code of its statements. Its jumps lead to its instructions, or to
what follows it. -/
theorem code_of_emitFragment (h : (emitFragment ctx body pool).1 = .ok code) :
    ∃ e, Runs (stmts body) ctx (start ctx pool) () e ∧ e.Ordered ∧
      (emitFragment ctx body pool).2 = e.pool ∧
      Instruction.encode (resolvedCode e) = .ok code.code ∧
      ∀ i ∈ resolvedCode e, ∀ l ∈ i.labels, l ≤ (resolvedCode e).length := by
  obtain ⟨e, hrun, hfinish, hpool⟩ := runs_of_emitFragment h
  have he := (Ordered.start ctx pool).steps (advances_stmts body 0 ctx _ _ e (Nat.zero_le _) hrun)
  obtain ⟨hlabels, _, bytes, hbytes, rfl⟩ := of_finish hfinish
  obtain ⟨hcode, hsame⟩ :
      resolvedCode (fragmentEnd e) = resolvedCode e ∧ (fragmentEnd e).labels = e.labels := by
    unfold fragmentEnd
    split_ifs <;> exact ⟨rfl, rfl⟩
  rw [hcode] at hbytes
  rw [hsame] at hlabels
  exact ⟨e, hrun, he, hpool, hbytes, fun i hi l hl => (he.labels_of_finish hlabels hi hl).1⟩

end Emit

end ClassSynth
