import ClassSynth.Proofs.Emit.Order
import ClassSynth.Proofs.Patch.Images

/-!
# Code with a prologue

After `CodeAttribute.insertPrologue` the code is the prologue followed by the old code, and every
table says of the image of an instruction what it said of the instruction (`Prologued`). Only a
variable that is live from the start of the method is live in the prologue too.

The tables are written with counts of 16 bits that are not checked. `reading_insertPrologue` has
this as a hypothesis; where it fails, rows are lost.
-/

namespace ClassSynth

open Instruction (offsetIn)
open CodeReading (relocate)

namespace Prologued

/-- Where an offset of the prologue goes. -/
def shifted (prologue new : CodeReading) (pc : Nat) : Nat :=
  new.offset (prologue.position pc)

/-- Where an offset of the old code goes. -/
def moved (prologue old new : CodeReading) (pc : Nat) : Nat :=
  new.offset (old.position pc + prologue.code.length)

/-- An exception range covers the images of the instructions it covered, and none of the prologue.
Its handler is the image of its handler. -/
structure Handler (prologue old new : CodeReading) (o n : ExceptionEntry) : Prop where
  catchType : n.catchType = o.catchType
  handler : n.handler.toNat = moved prologue old new o.handler.toNat
  body : ∀ p ∈ old.code, Covers n.start.toNat n.stop.toNat (moved prologue old new p.1) ↔
    Covers o.start.toNat o.stop.toNat p.1
  prologue : ∀ p ∈ prologue.code,
    ¬ Covers n.start.toNat n.stop.toNat (shifted prologue new p.1)

/-- A source line starts at the image of the instruction it started at. -/
structure Line (prologue old new : CodeReading) (o n : LineEntry) : Prop where
  line : n.line = o.line
  start : n.start.toNat = moved prologue old new o.start.toNat

/-- A variable is live in the images of the instructions it was live in. It is live in the prologue
if it was live from the start. -/
structure Range (prologue old new : CodeReading) (o n : VariableEntry) : Prop where
  name : n.name = o.name
  descriptor : n.descriptor = o.descriptor
  slot : n.slot = o.slot
  body : ∀ p ∈ old.code, Covers n.start.toNat n.stop (moved prologue old new p.1) ↔
    Covers o.start.toNat o.stop p.1
  prologue : ∀ p ∈ prologue.code,
    Covers n.start.toNat n.stop (shifted prologue new p.1) ↔ o.start = 0

/-- The frames of the prologue that stay: a frame of the old code at its start hides one at the end
of the prologue. -/
def ownFrames (prologue old : CodeReading) : List FrameState :=
  prologue.frames.filter fun f => !(f.pc == prologue.size && old.frames.any (·.pc == 0))

/-- The ranges of variables after `size` more instructions, by position. -/
def rangesAfter (size : Nat) (bounds : List Nat) (rows : List VariableEntry) : List IndexedRange :=
  IndexedBody.keepStart (rows.map (·.indexed bounds)) ((rows.map (·.indexed bounds)).map fun r =>
    { r with start := r.start + size, stop := r.stop + size })

end Prologued

open Prologued in
/-- The new code is the old code with a prologue. -/
structure Prologued (withFrames : Bool) (prologue old new : CodeReading) : Prop where
  code : new.code = relocate (shifted prologue new) prologue.code ++
    relocate (moved prologue old new) old.code
  /-- Labels of the prologue lead to its instructions or to the first one after it. -/
  labels : ∀ p ∈ prologue.code, ∀ l ∈ p.2.labels,
    shifted prologue new l ∈ new.boundaries.take (prologue.code.length + 1)
  /-- Labels of the old code lead to images of its instructions, or to its end. -/
  bodyLabels : ∀ p ∈ old.code, ∀ l ∈ p.2.labels, l ∈ old.boundaries
  handlers : List.Forall₂ (Handler prologue old new) old.handlers new.handlers
  lines : List.Forall₂ (Line prologue old new) old.lines new.lines
  localVariables : List.Forall₂ (Range prologue old new) old.localVariables new.localVariables
  localVariableTypes :
    List.Forall₂ (Range prologue old new) old.localVariableTypes new.localVariableTypes
  frames : new.frames =
    if withFrames then
      (ownFrames prologue old).map (·.mapOffsets (shifted prologue new)) ++
        old.frames.map (·.mapOffsets (moved prologue old new))
    else []
  increasing : new.frames.Pairwise (·.pc < ·.pc)
  other : new.other = old.other

/-- The new code was written after the prologue was inserted by position. -/
structure PrologueEdit (withFrames : Bool) (prologue old new : CodeReading)
    (edited : IndexedBody) : Prop where
  prologueClosed : prologue.Closed
  oldClosed : old.Closed
  body : ∃ ownStack ownLocals maxStack maxLocals, edited =
    (old.indexed maxStack maxLocals).insertPrologue (prologue.fragment ownStack ownLocals)
  reading : new = edited.reading withFrames
  size : offsetIn edited.code edited.code.length ≤ 65535

namespace PrologueEdit

open Prologued

variable {withFrames : Bool} {prologue old new : CodeReading} {edited : IndexedBody}
  (h : PrologueEdit withFrames prologue old new edited)
include h

/-! ## Instructions -/

theorem code_edited : edited.code
    = prologue.code.map (fun p => p.2.mapLabels (id ∘ prologue.position)) ++
      old.code.map (fun p => p.2.mapLabels ((· + prologue.code.length) ∘ old.position)) := by
  obtain ⟨_, _, _, _, rfl⟩ := h.body
  simp [IndexedBody.insertPrologue, IndexedBody.mapPositions, CodeReading.indexed,
    CodeReading.fragment, Function.comp_def]

theorem length_edited : edited.code.length = prologue.code.length + old.code.length := by
  rw [h.code_edited, List.length_append, List.length_map, List.length_map]

theorem offset_new : new.offset = offsetIn edited.code := by
  funext p
  rw [h.reading, IndexedBody.offset_reading]

theorem code_new : new.code = relocate (shifted prologue new) prologue.code ++
    relocate (moved prologue old new) old.code := by
  have hcode : new.code = Instruction.placed edited.code := by
    rw [h.reading]
    rfl
  rw [hcode, Instruction.placed_eq_mapIdx, ← h.offset_new, h.code_edited, List.mapIdx_append,
    List.length_map]
  exact congrArg₂ (· ++ ·) (h.prologueClosed.mapIdx_eq_relocate new.offset id)
    (h.oldClosed.mapIdx_eq_relocate new.offset (· + prologue.code.length))

theorem labels_new {l : Nat} (hl : l ∈ prologue.boundaries) :
    shifted prologue new l ∈ new.boundaries.take (prologue.code.length + 1) := by
  have hle := CodeReading.position_le hl
  have hlen : (new.boundaries.take (prologue.code.length + 1)).length
      = prologue.code.length + 1 := by
    rw [List.length_take, h.reading, IndexedBody.boundaries_reading, Instruction.length_layout,
      h.length_edited]
    omega
  have hmem : (new.boundaries.take (prologue.code.length + 1))[prologue.position l]?
      = some (shifted prologue new l) := by
    rw [List.getElem?_take_of_lt (by omega), shifted, h.reading, IndexedBody.offset_reading,
      IndexedBody.boundaries_reading]
    exact Instruction.layout_getElem? (by rw [h.length_edited]; omega)
  exact List.mem_of_getElem? hmem

/-! ## Ranges -/

theorem position_le {pc : Nat} (hpc : pc ∈ old.boundaries) :
    old.position pc + prologue.code.length ≤ edited.code.length := by
  have hle := CodeReading.position_le hpc
  rw [h.length_edited]
  omega

theorem toNat_moved {pc : Nat} (hpc : pc ∈ old.boundaries) :
    (offsetIn edited.code (old.position pc + prologue.code.length)).toUInt16.toNat
      = moved prologue old new pc := by
  rw [moved, h.offset_new]
  exact IndexedBody.toNat_offsetIn h.size (h.position_le hpc)

theorem moved_lt_moved {a b : Nat} (ha : a ∈ old.boundaries) (hb : b ∈ old.boundaries) :
    moved prologue old new a < moved prologue old new b ↔ a < b := by
  rw [moved, moved, h.offset_new, Instruction.offsetIn_lt_iff (h.position_le ha) (h.position_le hb),
    Nat.add_lt_add_iff_right, h.oldClosed.position_lt_iff ha hb]

/-- A range from image to image covers the images of what it covered. -/
theorem covers_moved {start stop pc : Nat} (hstart : start ∈ old.boundaries)
    (hstop : stop ∈ old.boundaries) (hpc : pc ∈ old.boundaries) :
    Covers (moved prologue old new start) (moved prologue old new stop)
      (moved prologue old new pc) ↔ Covers start stop pc := by
  rw [Covers, Covers, ← Nat.not_lt, ← Nat.not_lt, h.moved_lt_moved hpc hstart,
    h.moved_lt_moved hpc hstop]

/-- The prologue lies before all images. -/
theorem shifted_lt_moved {pc : Nat} (hpc : pc ∈ old.boundaries) {p : Nat × Instruction}
    (hmem : p ∈ prologue.code) : shifted prologue new p.1 < moved prologue old new pc := by
  have hlt : prologue.position p.1 < prologue.code.length := by
    obtain ⟨i, hi, rfl⟩ := List.getElem_of_mem hmem
    rwa [h.prologueClosed.position_fst hi]
  rw [shifted, moved, h.offset_new]
  exact Instruction.offsetIn_lt (by omega) (h.position_le hpc)

/-! ## Tables -/

theorem handlers_new : List.Forall₂ (Handler prologue old new) old.handlers new.handlers := by
  have hrows : new.handlers = old.handlers.map fun e =>
      (IndexedHandler.entryIn edited.code {
        start := old.position e.start.toNat + prologue.code.length
        stop := old.position e.stop.toNat + prologue.code.length
        handler := old.position e.handler.toNat + prologue.code.length
        catchType := e.catchType }) := by
    rw [h.reading]
    obtain ⟨_, _, _, _, rfl⟩ := h.body
    simp [IndexedBody.reading, IndexedBody.insertPrologue, IndexedBody.mapPositions,
      CodeReading.indexed, ExceptionEntry.indexed, CodeReading.position]
  rw [hrows, List.forall₂_map_right_iff, List.forall₂_same]
  intro e he
  obtain ⟨hstart, hstop, hhandler⟩ := h.oldClosed.handlers e he
  have hstartNat := h.toNat_moved hstart
  have hstopNat := h.toNat_moved hstop
  exact {
    catchType := rfl
    handler := h.toNat_moved hhandler
    body := fun p hp => by
      simp only [IndexedHandler.entryIn, hstartNat, hstopNat]
      exact h.covers_moved hstart hstop (CodeReading.fst_mem_boundaries hp)
    prologue := fun p hp hcovers => by
      simp only [IndexedHandler.entryIn, hstartNat] at hcovers
      exact Nat.not_le_of_lt (h.shifted_lt_moved hstart hp) hcovers.1 }

theorem lines_new : List.Forall₂ (Line prologue old new) old.lines new.lines := by
  have hrows : new.lines = old.lines.map fun l =>
      (IndexedLine.entryIn edited.code {
        start := old.position l.start.toNat + prologue.code.length
        line := l.line }) := by
    rw [h.reading]
    obtain ⟨_, _, _, _, rfl⟩ := h.body
    simp [IndexedBody.reading, IndexedBody.tables, IndexedBody.insertPrologue,
      IndexedBody.mapPositions, CodeReading.indexed, LineEntry.indexed, CodeReading.position]
  rw [hrows, List.forall₂_map_right_iff, List.forall₂_same]
  intro l hl
  exact ⟨rfl, h.toNat_moved (h.oldClosed.tables.lines l hl)⟩

theorem range_new {v : VariableEntry} {r : IndexedRange} (hstart : v.start.toNat ∈ old.boundaries)
    (hstop : v.stop ∈ old.boundaries)
    (hr : r = {
      start := if v.start = 0 then 0 else old.position v.start.toNat + prologue.code.length
      stop := old.position v.stop + prologue.code.length
      entry := v }) :
    Range prologue old new v (r.entryIn edited.code) := by
  have hstopLe : r.stop ≤ edited.code.length := by
    rw [hr]
    exact h.position_le hstop
  have hle : r.start ≤ r.stop := by
    have hnot : ¬ old.position v.stop < old.position v.start.toNat := by
      rw [h.oldClosed.position_lt_iff hstop hstart, VariableEntry.stop]
      omega
    rw [hr]
    dsimp only
    split_ifs <;> omega
  have hstopNew : (r.entryIn edited.code).stop = moved prologue old new v.stop := by
    rw [IndexedBody.stop_entryIn h.size hle hstopLe, moved, h.offset_new, hr]
  have hstartNew : (r.entryIn edited.code).start.toNat = offsetIn edited.code r.start :=
    IndexedBody.toNat_offsetIn h.size (Nat.le_trans hle hstopLe)
  have hname : (r.entryIn edited.code).name = v.name := by
    rw [hr]
    rfl
  have hdescriptor : (r.entryIn edited.code).descriptor = v.descriptor := by
    rw [hr]
    rfl
  have hslot : (r.entryIn edited.code).slot = v.slot := by
    rw [hr]
    rfl
  by_cases hzero : v.start = 0
  · have hfirst : (r.entryIn edited.code).start.toNat = 0 := by
      rw [hstartNew, hr]
      simp [hzero]
    refine ⟨hname, hdescriptor, hslot, fun p hp => ?_, fun p hp => ?_⟩
    · have hlt := h.moved_lt_moved (CodeReading.fst_mem_boundaries hp) hstop
      simp [Covers, hfirst, hstopNew, hzero, hlt]
    · simp [Covers, hfirst, hstopNew, hzero, h.shifted_lt_moved hstop hp]
  · have hfirst : (r.entryIn edited.code).start.toNat = moved prologue old new v.start.toNat := by
      rw [hstartNew, moved, h.offset_new, hr]
      simp [hzero]
    refine ⟨hname, hdescriptor, hslot, fun p hp => ?_, fun p hp => ?_⟩
    · rw [hfirst, hstopNew]
      exact h.covers_moved hstart hstop (CodeReading.fst_mem_boundaries hp)
    · have hlt := h.shifted_lt_moved hstart hp
      simp [Covers, hfirst, hzero, hlt]

theorem ranges_edited :
    edited.localVariables = rangesAfter prologue.code.length old.boundaries old.localVariables ∧
      edited.localVariableTypes
        = rangesAfter prologue.code.length old.boundaries old.localVariableTypes := by
  obtain ⟨_, _, _, _, rfl⟩ := h.body
  simp only [IndexedBody.insertPrologue, IndexedBody.mapPositions, CodeReading.indexed,
    CodeReading.length_fragment, rangesAfter, and_self]

/-- Both tables of variables are moved alike. -/
theorem ranges_new {rows : List VariableEntry}
    (hrows : ∀ v ∈ rows, v.start.toNat ∈ old.boundaries ∧ v.stop ∈ old.boundaries) :
    List.Forall₂ (Range prologue old new) rows
      ((rangesAfter prologue.code.length old.boundaries rows).map (·.entryIn edited.code)) := by
  rw [rangesAfter, IndexedBody.keepStart, List.zipWith_map_right, List.zipWith_self, List.map_map,
    List.map_map, List.forall₂_map_right_iff, List.forall₂_same]
  intro v hv
  obtain ⟨hstart, hstop⟩ := hrows v hv
  refine h.range_new hstart hstop ?_
  have hzero : old.boundaries.idxOf v.start.toNat = 0 ↔ v.start = 0 := by
    constructor
    · intro hidx
      exact UInt16.toNat_inj.mp (h.oldClosed.position_eq_zero hstart hidx)
    · intro hv
      rw [hv]
      exact h.oldClosed.position_zero
  simp only [VariableEntry.indexed, hzero]
  split_ifs <;> rfl

/-! ## Frames -/

theorem frames_edited : edited.frames
    = ((ownFrames prologue old).map (·.mapOffsets prologue.position)) ++
      old.frames.map fun s =>
        (s.mapOffsets old.position).mapOffsets (· + prologue.code.length) := by
  obtain ⟨_, _, _, _, rfl⟩ := h.body
  simp only [IndexedBody.insertPrologue, IndexedBody.mapPositions, CodeReading.indexed,
    CodeReading.length_fragment, List.map_map]
  refine congrArg₂ (· ++ ·) ?_ rfl
  rw [CodeReading.fragment, List.filter_map, ownFrames]
  congr 1
  refine List.filter_congr fun f hf => ?_
  have hf := h.prologueClosed.tables.frames f hf f.pc f.pc_mem_offsets
  have hle := CodeReading.position_le hf
  have hend : f.pc = prologue.size ↔ prologue.position f.pc = prologue.code.length := by
    constructor
    · intro hpc
      rw [hpc, h.prologueClosed.position_size]
    · intro hposition
      rw [← CodeReading.offset_position hf, hposition, CodeReading.offset_length]
  have hiff : ((old.frames.map ((·.mapOffsets (· + prologue.code.length)) ∘
      (·.mapOffsets old.position))).any (·.pc == (f.mapOffsets prologue.position).pc)) = true ↔
      (f.pc == prologue.size && old.frames.any (·.pc == 0)) = true := by
    simp only [List.any_map, List.any_eq_true, Function.comp_apply, FrameState.mapOffsets_eq,
      beq_iff_eq, Bool.and_eq_true, hend]
    constructor
    · rintro ⟨s, hs, hpc⟩
      have hmem := h.oldClosed.tables.frames s hs s.pc s.pc_mem_offsets
      exact ⟨by omega, s, hs, h.oldClosed.position_eq_zero hmem (by omega)⟩
    · rintro ⟨hposition, s, hs, hpc⟩
      exact ⟨s, hs, by rw [hpc, h.oldClosed.position_zero, hposition, Nat.zero_add]⟩
  simp only [Function.comp_apply, Bool.not_eq_eq_eq_not, Bool.not_not]
  exact Bool.eq_iff_iff.mpr hiff

/-- The frames of the prologue stand before those of the old code. -/
theorem frames_pairwise (hown : prologue.frames.Pairwise (·.pc < ·.pc))
    (hbody : old.frames.Pairwise (·.pc < ·.pc)) : edited.frames.Pairwise (·.pc < ·.pc) := by
  have hpcOwn : ∀ s ∈ ownFrames prologue old, s.pc ∈ prologue.boundaries := fun s hs =>
    h.prologueClosed.tables.frames s (List.mem_filter.mp hs).1 s.pc s.pc_mem_offsets
  have hpcBody : ∀ s ∈ old.frames, s.pc ∈ old.boundaries := fun s hs =>
    h.oldClosed.tables.frames s hs s.pc s.pc_mem_offsets
  rw [h.frames_edited, List.pairwise_append]
  refine ⟨?_, ?_, ?_⟩
  · refine List.pairwise_map.mpr ((hown.sublist List.filter_sublist).imp_of_mem ?_)
    intro s t hs ht hlt
    simp only [FrameState.mapOffsets_eq]
    exact (h.prologueClosed.position_lt_iff (hpcOwn s hs) (hpcOwn t ht)).mpr hlt
  · refine List.pairwise_map.mpr (hbody.imp_of_mem fun {s t} hs ht hlt => ?_)
    simp only [FrameState.mapOffsets_eq, Nat.add_lt_add_iff_right]
    exact (h.oldClosed.position_lt_iff (hpcBody s hs) (hpcBody t ht)).mpr hlt
  · intro s' hs' t' ht'
    obtain ⟨s, hs, rfl⟩ := List.mem_map.mp hs'
    obtain ⟨t, ht, rfl⟩ := List.mem_map.mp ht'
    simp only [FrameState.mapOffsets_eq]
    have hle := CodeReading.position_le (hpcOwn s hs)
    by_contra hnot
    -- Both stand at the first instruction of the old code, where only its own frame stays.
    have hsPc : s.pc = prologue.size := by
      rw [← CodeReading.offset_position (hpcOwn s hs), ← CodeReading.offset_length]
      congr 1
      omega
    have htPc : t.pc = 0 := h.oldClosed.position_eq_zero (hpcBody t ht) (by omega)
    have hkept := (List.mem_filter.mp hs).2
    rw [List.any_eq_true.mpr ⟨t, ht, by simp [htPc]⟩] at hkept
    simp [hsPc] at hkept

theorem frames_inside {s : FrameState} (hs : s ∈ edited.frames) : s.pc ≤ edited.code.length := by
  rw [h.frames_edited] at hs
  rcases List.mem_append.mp hs with hs | hs
  · obtain ⟨t, ht, rfl⟩ := List.mem_map.mp hs
    have hmem := h.prologueClosed.tables.frames t (List.mem_filter.mp ht).1 t.pc t.pc_mem_offsets
    have hle := CodeReading.position_le hmem
    simp only [FrameState.mapOffsets_eq, h.length_edited]
    omega
  · obtain ⟨t, ht, rfl⟩ := List.mem_map.mp hs
    simp only [FrameState.mapOffsets_eq]
    exact h.position_le (h.oldClosed.tables.frames t ht t.pc t.pc_mem_offsets)

/-- There are fewer than `2 ^ 16` frames, because none stands at the start of the prologue. -/
theorem length_frames_lt (hpairs : edited.frames.Pairwise (·.pc < ·.pc))
    (hpos : ∀ s ∈ prologue.frames, 0 < s.pc) (hlen : old.frames.length < 65536) :
    edited.frames.length < 65536 := by
  have hlast : edited.code.length ≤ 65535 :=
    Nat.le_trans (Instruction.le_offsetIn (Nat.le_refl _)) h.size
  have hown : ∀ s ∈ ownFrames prologue old, 0 < prologue.position s.pc := fun s hs => by
    have hs := (List.mem_filter.mp hs).1
    have hmem := h.prologueClosed.tables.frames s hs s.pc s.pc_mem_offsets
    rw [Nat.pos_iff_ne_zero]
    intro hzero
    exact Nat.ne_of_gt (hpos s hs) (h.prologueClosed.position_eq_zero hmem hzero)
  rcases Nat.eq_zero_or_pos prologue.code.length with hempty | hpresent
  · have hnone : ownFrames prologue old = [] := by
      refine List.eq_nil_iff_forall_not_mem.mpr fun s hs => ?_
      have hmem := h.prologueClosed.tables.frames s (List.mem_filter.mp hs).1 s.pc s.pc_mem_offsets
      have hle := CodeReading.position_le hmem
      have hlt := hown s hs
      omega
    rw [h.frames_edited, hnone, List.map_nil, List.nil_append, List.length_map]
    exact hlen
  · have hbounds : ∀ s ∈ edited.frames, 1 ≤ s.pc ∧ s.pc ≤ edited.code.length := by
      intro s hs
      refine ⟨?_, h.frames_inside hs⟩
      rw [h.frames_edited] at hs
      rcases List.mem_append.mp hs with hs | hs
      · obtain ⟨t, ht, rfl⟩ := List.mem_map.mp hs
        simp only [FrameState.mapOffsets_eq]
        exact hown t ht
      · obtain ⟨t, ht, rfl⟩ := List.mem_map.mp hs
        simp only [FrameState.mapOffsets_eq]
        omega
    have hle := FrameState.length_le_of_pairwise hpairs hbounds
    omega

theorem frames_new (hedited : edited.frames.Pairwise (·.pc < ·.pc)) : new.frames =
    if withFrames then
      (ownFrames prologue old).map (·.mapOffsets (shifted prologue new)) ++
        old.frames.map (·.mapOffsets (moved prologue old new))
    else [] := by
  have hnew : new.frames
      = if withFrames then edited.frames.map (·.mapOffsets (offsetIn edited.code)) else [] := by
    rw [h.reading]
    simp only [IndexedBody.reading, IndexedBody.tables, IndexedBody.framesByOffset,
      IndexedBody.normalizeFrames_of_pairwise hedited]
  have hlength : edited.code.length ≤ 65535 :=
    Nat.le_trans (Instruction.le_offsetIn (Nat.le_refl _)) h.size
  rw [h.length_edited] at hlength
  rw [hnew, h.frames_edited, List.map_append, List.map_map, List.map_map]
  congr 2
  · refine List.map_congr_left fun s hs => ?_
    have hmem := h.prologueClosed.tables.frames s (List.mem_filter.mp hs).1
    rw [Function.comp_apply, FrameState.mapOffsets_mapOffsets fun a ha => by
      have hle := CodeReading.position_le (hmem a ha)
      omega]
    exact FrameState.mapOffsets_congr fun a ha => by rw [shifted, h.offset_new, Function.comp_apply]
  · refine List.map_congr_left fun s hs => ?_
    have hmem := h.oldClosed.tables.frames s hs
    have hsmall : ∀ a ∈ s.offsets, old.position a < 65536 := fun a ha => by
      have hle := CodeReading.position_le (hmem a ha)
      omega
    have hoffsets := FrameState.offsets_mapOffsets hsmall
    rw [Function.comp_apply, FrameState.mapOffsets_mapOffsets fun b hb => by
      rw [hoffsets] at hb
      obtain ⟨a, ha, rfl⟩ := List.mem_map.mp hb
      have hle := CodeReading.position_le (hmem a ha)
      omega, FrameState.mapOffsets_mapOffsets hsmall]
    exact FrameState.mapOffsets_congr fun a ha => by
      simp only [moved, h.offset_new, Function.comp_apply]

theorem increasing_new (hedited : edited.frames.Pairwise (·.pc < ·.pc)) :
    new.frames.Pairwise (·.pc < ·.pc) := by
  have hnodup : (edited.frames.map (·.pc)).Nodup :=
    List.pairwise_map.mpr (hedited.imp Nat.ne_of_lt)
  rw [h.reading]
  simp only [IndexedBody.reading, IndexedBody.tables]
  split_ifs
  · exact IndexedBody.framesByOffset_pairwise hnodup fun s hs => h.frames_inside hs
  · exact List.Pairwise.nil

theorem fits_edited : ∀ i ∈ edited.code, i.Fits := by
  rw [h.code_edited]
  intro i hi
  rcases List.mem_append.mp hi with hi | hi
  · obtain ⟨p, hp, rfl⟩ := List.mem_map.mp hi
    exact (h.prologueClosed.fits p hp).mapLabels
  · obtain ⟨p, hp, rfl⟩ := List.mem_map.mp hi
    exact (h.oldClosed.fits p hp).mapLabels

theorem other_edited : edited.other = old.other := by
  obtain ⟨_, _, _, _, rfl⟩ := h.body
  rfl

theorem prologued (hedited : edited.frames.Pairwise (·.pc < ·.pc)) :
    Prologued withFrames prologue old new where
  code := h.code_new
  labels p hp l hl := h.labels_new (h.prologueClosed.labels p hp l hl)
  bodyLabels := h.oldClosed.labels
  handlers := h.handlers_new
  lines := h.lines_new
  localVariables := by
    have hrows : new.localVariables = edited.localVariables.map (·.entryIn edited.code) := by
      rw [h.reading]
      rfl
    rw [hrows, h.ranges_edited.1]
    exact h.ranges_new h.oldClosed.tables.localVariables
  localVariableTypes := by
    have hrows :
        new.localVariableTypes = edited.localVariableTypes.map (·.entryIn edited.code) := by
      rw [h.reading]
      rfl
    rw [hrows, h.ranges_edited.2]
    exact h.ranges_new h.oldClosed.tables.localVariableTypes
  frames := h.frames_new hedited
  increasing := h.increasing_new hedited
  other := by
    rw [h.reading]
    exact h.other_edited

end PrologueEdit

/-! ## Main result -/

/-- Code with an emitted prologue says what the old code said, if the counts in its tables fit. -/
theorem reading_insertPrologue {ctx : MethodContext} {stmts : List Stmt}
    {pool₀ pool pool' : ConstantPool} {e : EmittedCode} {fragment : Fragment}
    {entryLocals : List VerificationType} {withFrames : Bool} {c patched : CodeAttribute}
    (hemit : (emitFragment ctx stmts pool₀).1 = .ok e)
    (hfragment : Fragment.ofEmitted e = .ok fragment)
    (hone : c.attributes.countP (Attribute.isStackMapTable pool) ≤ 1)
    (hrun : (c.insertPrologue fragment entryLocals withFrames).run.run pool
      = (.ok patched, pool'))
    (hcounts : ∀ body, IndexedBody.ofCode pool entryLocals c = .ok body →
      (body.insertPrologue fragment).CountsFit entryLocals withFrames)
    (hindexable : pool'.Indexable) :
    ∃ prologue old new, CodeReading.ofEmitted e = .ok prologue ∧
      CodeReading.ofCode pool entryLocals c = .ok old ∧
      CodeReading.ofCode pool' entryLocals patched = .ok new ∧
      Prologued withFrames prologue old new := by
  obtain ⟨prologue, hprologue, hprologueClosed, rfl⟩ := reading_of_ofEmitted hfragment
  obtain ⟨old, hold, holdClosed, hbody, hedit⟩ := reading_of_edit hrun hone
  obtain ⟨hsize, hread⟩ := hedit _ rfl
  have h : PrologueEdit withFrames prologue old _ _ :=
    ⟨hprologueClosed, holdClosed, ⟨_, _, _, _, rfl⟩, rfl, hsize⟩
  obtain ⟨hoffsets, hpcs⟩ := Emit.frames_of_emitFragment hemit
  obtain ⟨hlen, hbodyPairs⟩ := frames_of_ofCode hold hone
  have hframes : prologue.frames = e.frames := by
    obtain ⟨code, -, rfl⟩ := CodeReading.ofEmitted_eq_ok.mp hprologue
    rfl
  rw [← hframes] at hoffsets hpcs
  have hpairs := h.frames_pairwise hoffsets hbodyPairs
  have hnodup := List.pairwise_map.mpr (hpairs.imp Nat.ne_of_lt)
  have hcount := h.length_frames_lt hpairs (fun s hs => (hpcs s hs).1) hlen
  exact ⟨prologue, old, _, hprologue, hold, hread h.other_edited h.fits_edited hnodup
    (fun _ => hcount) (hcounts _ hbody) hindexable, h.prologued hpairs⟩

/-- The jump of a condition in the prologue leads to the old code, whose own jump and exception
range have moved. -/
theorem reading_insertPrologue_condition :
    ∃ prologue old new,
      CodeReading.ofEmitted ⟨[4, 5, 160, 0, 5, 6, 87], 2, 0, [⟨7, [], []⟩]⟩ = .ok prologue ∧
      CodeReading.ofCode .empty [] ⟨0, 0, [0xa7, 0, 3, 0xb1], [⟨0, 4, 3, 0⟩], []⟩ = .ok old ∧
      CodeReading.ofCode .empty []
        ⟨2, 0, [4, 5, 160, 0, 5, 6, 87, 0xa7, 0, 3, 0xb1], [⟨7, 11, 10, 0⟩], []⟩ = .ok new ∧
      Prologued false prologue old new := by
  have hemit : (emitFragment { className := ⟨"A"⟩, params := [], ret := .void, isStatic := true }
      [.ifThen (.compare .eq (.int 1) (.int 2)) [.expr (.int 3)]] .empty).1
      = .ok ⟨[4, 5, 160, 0, 5, 6, 87], 2, 0, [⟨7, [], []⟩]⟩ := by decide
  have hfragment : Fragment.ofEmitted ⟨[4, 5, 160, 0, 5, 6, 87], 2, 0, [⟨7, [], []⟩]⟩
      = .ok ⟨[⟨4, .empty⟩, ⟨5, .empty⟩, ⟨160, .branch 5⟩, ⟨6, .empty⟩, ⟨87, .empty⟩],
        [⟨5, [], []⟩], 2, 0⟩ := by decide
  have hbody : IndexedBody.ofCode .empty [] ⟨0, 0, [0xa7, 0, 3, 0xb1], [⟨0, 4, 3, 0⟩], []⟩
      = .ok ⟨[⟨0xa7, .branch 1⟩, ⟨0xb1, .empty⟩], 0, 0, [⟨0, 2, 1, 0⟩], [], [], [], [], []⟩ := by
    decide
  refine reading_insertPrologue hemit hfragment (by decide) rfl ?_ (Nat.zero_le _)
  intro body h
  obtain rfl := Except.ok.inj (hbody.symm.trans h)
  exact ⟨by decide, by decide, by decide, fun hframes => by cases hframes⟩

end ClassSynth
