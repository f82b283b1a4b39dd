import ClassSynth.Proofs.Emit.Order
import ClassSynth.Proofs.Patch.Images

/-!
# Code with replaced returns

After `CodeAttribute.replaceReturns` each return has become a `pop` and a copy of the replacement
whose labels lead into that copy. Everything else is moved along (`Replaced`): what referred to an
instruction refers to the first instruction of its image, and a range covers an image exactly when
it covered the instruction.

The tables are written with counts of 16 bits that are not checked. `reading_replaceReturns` has
this as a hypothesis; where it fails, rows are lost.
-/

namespace ClassSynth

open Instruction (offsetIn)
open CodeReading (relocate)
open IndexedBody (isReturn imagesFrom)

namespace Replaced

/-- How many instructions stand for an old one. -/
def width (opcode : UInt8) (replacement : CodeReading) (i : Instruction) : Nat :=
  if isReturn opcode i then replacement.code.length + 1 else 1

/-- The position of the first instruction that stands for the old one at an offset. -/
def place (opcode : UInt8) (replacement old : CodeReading) (pc : Nat) : Nat :=
  ((old.code.take (old.position pc)).map fun p => width opcode replacement p.2).sum

/-- Where an offset of the old code goes. -/
def moved (opcode : UInt8) (replacement old new : CodeReading) (pc : Nat) : Nat :=
  new.offset (place opcode replacement old pc)

/-- Where an offset of the replacement goes in the copy for the return at `site`. -/
def rebased (opcode : UInt8) (replacement old new : CodeReading) (site pc : Nat) : Nat :=
  new.offset (place opcode replacement old site + 1 + replacement.position pc)

/-- The instructions that stand for an old one. -/
def image (opcode : UInt8) (replacement old new : CodeReading) (p : Nat × Instruction) :
    List (Nat × Instruction) :=
  if isReturn opcode p.2 then
    (moved opcode replacement old new p.1, .simple Opcode.pop) ::
      relocate (rebased opcode replacement old new p.1) replacement.code
  else [(moved opcode replacement old new p.1,
    p.2.mapLabels (moved opcode replacement old new))]

/-- The frames of the copy that stands for an old instruction. -/
def copiedFrames (opcode : UInt8) (replacement old new : CodeReading) (p : Nat × Instruction) :
    List FrameState :=
  if isReturn opcode p.2 then
    replacement.frames.map (·.mapOffsets (rebased opcode replacement old new p.1))
  else []

/-- An exception range covers an image exactly when it covered the instruction. Its handler is the
image of its handler. -/
structure Handler (opcode : UInt8) (replacement old new : CodeReading) (o n : ExceptionEntry) :
    Prop where
  catchType : n.catchType = o.catchType
  handler : n.handler.toNat = moved opcode replacement old new o.handler.toNat
  covers : ∀ p ∈ old.code, ∀ q ∈ image opcode replacement old new p,
    Covers n.start.toNat n.stop.toNat q.1 ↔ Covers o.start.toNat o.stop.toNat p.1

/-- A source line starts at the image of the instruction it started at. -/
structure Line (opcode : UInt8) (replacement old new : CodeReading) (o n : LineEntry) : Prop where
  line : n.line = o.line
  start : n.start.toNat = moved opcode replacement old new o.start.toNat

/-- A variable is live in an image exactly when it was live in the instruction. Its range does not
wrap around. -/
structure Range (opcode : UInt8) (replacement old new : CodeReading) (o n : VariableEntry) :
    Prop where
  name : n.name = o.name
  descriptor : n.descriptor = o.descriptor
  slot : n.slot = o.slot
  start : n.start.toNat = moved opcode replacement old new o.start.toNat
  stop : n.stop = moved opcode replacement old new o.stop
  covers : ∀ p ∈ old.code, ∀ q ∈ image opcode replacement old new p,
    Covers n.start.toNat n.stop q.1 ↔ Covers o.start.toNat o.stop p.1

end Replaced

open Replaced in
/-- The new code is the old code with a copy of the replacement for each return. -/
structure Replaced (opcode : UInt8) (withFrames : Bool) (replacement old new : CodeReading) :
    Prop where
  code : new.code = old.code.flatMap (image opcode replacement old new)
  /-- Labels of the replacement lead to its own instructions. -/
  copyLabels : ∀ p ∈ replacement.code, ∀ l ∈ p.2.labels, ∃ q ∈ replacement.code, q.1 = l
  /-- Labels of the old code lead to images of its instructions, or to its end. -/
  bodyLabels : ∀ p ∈ old.code, ∀ l ∈ p.2.labels, l ∈ old.boundaries
  handlers : List.Forall₂ (Handler opcode replacement old new) old.handlers new.handlers
  lines : List.Forall₂ (Line opcode replacement old new) old.lines new.lines
  localVariables :
    List.Forall₂ (Range opcode replacement old new) old.localVariables new.localVariables
  localVariableTypes :
    List.Forall₂ (Range opcode replacement old new) old.localVariableTypes new.localVariableTypes
  frames : List.Perm new.frames
    (if withFrames then
      old.code.flatMap (copiedFrames opcode replacement old new) ++
        old.frames.map (·.mapOffsets (moved opcode replacement old new))
    else [])
  increasing : new.frames.Pairwise (·.pc < ·.pc)
  other : new.other = old.other

/-! ## Images of positions -/

namespace Replaced

/-- The position of the first instruction that stands for the one at a position. -/
def start (opcode : UInt8) (size : Nat) (is : List Instruction) (position : Nat) : Nat :=
  ((is.take position).map fun i => if isReturn opcode i then size else 1).sum

variable {opcode : UInt8} {size : Nat} {is : List Instruction} {replacement old new : CodeReading}

theorem imagesFrom_eq (opcode : UInt8) (size next : Nat) (is : List Instruction) :
    imagesFrom opcode size next is
      = (List.range (is.length + 1)).map (next + start opcode size is ·) := by
  induction is generalizing next with
  | nil => rfl
  | cons i is ih =>
    rw [imagesFrom, ih, List.length_cons, List.range_succ_eq_map (n := is.length + 1),
      List.map_cons, List.map_map]
    congr 1
    refine List.map_congr_left fun p _ => ?_
    simp only [start, Function.comp_apply, List.take_succ_cons, List.map_cons, List.sum_cons]
    omega

theorem start_succ {p : Nat} (hp : p < is.length) : start opcode size is (p + 1)
    = start opcode size is p + if isReturn opcode is[p] then size else 1 := by
  rw [start, start, List.take_succ_eq_append_getElem hp, List.map_append, List.sum_append]
  simp

theorem start_lt (hsize : 0 < size) {p q : Nat} (hpq : p < q) (hq : q ≤ is.length) :
    start opcode size is p < start opcode size is q := by
  induction q with
  | zero => omega
  | succ q ih =>
    have hstep : start opcode size is q < start opcode size is (q + 1) := by
      rw [start_succ hq]
      split_ifs <;> omega
    rcases Nat.lt_or_eq_of_le (Nat.le_of_lt_succ hpq) with hlt | rfl
    · exact Nat.lt_trans (ih hlt (by omega)) hstep
    · exact hstep

@[simp] theorem imagesFrom_mapLabels (f : Label → Label) (next : Nat) :
    imagesFrom opcode size next (is.map (·.mapLabels f)) = imagesFrom opcode size next is := by
  induction is generalizing next with
  | nil => rfl
  | cons i is ih =>
    rw [List.map_cons, imagesFrom, ih, imagesFrom]
    rfl

theorem start_map {α : Type} {xs : List α} {f : α → Instruction} (p : Nat) :
    start opcode size (xs.map f) p
      = ((xs.take p).map fun x => if isReturn opcode (f x) then size else 1).sum := by
  rw [start, ← List.map_take, List.map_map]
  rfl

/-- The instructions that stand for one at a position, by position. -/
def block (opcode : UInt8) (fragment : Fragment) (i : Instruction) (start : Nat) :
    List Instruction :=
  if isReturn opcode i then IndexedBody.expansion fragment start else [i]

theorem length_block (fragment : Fragment) (i : Instruction) (start : Nat) :
    (block opcode fragment i start).length
      = if isReturn opcode i then fragment.code.length + 1 else 1 := by
  rw [block]
  split_ifs <;> simp [IndexedBody.expansion]

/-- The images one after another. -/
def spread (opcode : UInt8) (fragment : Fragment) (next : Nat) (is : List Instruction) :
    List Instruction :=
  (is.zip (imagesFrom opcode (fragment.code.length + 1) next is)).flatMap fun p =>
    block opcode fragment p.1 p.2

theorem spread_cons (fragment : Fragment) (next : Nat) (i : Instruction) (is : List Instruction) :
    spread opcode fragment next (i :: is) = block opcode fragment i next ++
      spread opcode fragment (next + (block opcode fragment i next).length) is := by
  rw [spread, imagesFrom, List.zip_cons_cons, List.flatMap_cons, length_block, spread]

theorem length_spread (fragment : Fragment) (next : Nat) (is : List Instruction) :
    (spread opcode fragment next is).length
      = start opcode (fragment.code.length + 1) is is.length := by
  induction is generalizing next with
  | nil => rfl
  | cons i is ih =>
    rw [spread_cons, List.length_append, ih, length_block, start, start, List.take_length,
      List.take_length, List.map_cons, List.sum_cons]

/-- Each image is laid out from its own position on. -/
theorem mapIdx_spread {α : Type} (opcode : UInt8) (fragment : Fragment) (F : Nat → Instruction → α)
    (next : Nat) (is : List Instruction) :
    (spread opcode fragment next is).mapIdx (fun j i => F (next + j) i)
      = (is.zip (imagesFrom opcode (fragment.code.length + 1) next is)).flatMap fun p =>
        (block opcode fragment p.1 p.2).mapIdx fun j i => F (p.2 + j) i := by
  induction is generalizing next with
  | nil => rfl
  | cons i is ih =>
    have htail := ih (next + (block opcode fragment i next).length)
    rw [spread_cons, List.mapIdx_append, imagesFrom, List.zip_cons_cons, List.flatMap_cons,
      ← length_block fragment i next, ← htail]
    congr 2
    funext j i'
    rw [Nat.add_assoc, Nat.add_comm j]

theorem place_eq (opcode : UInt8) (replacement old : CodeReading) (pc : Nat) :
    place opcode replacement old pc
      = start opcode (replacement.code.length + 1) (old.code.map (·.2)) (old.position pc) := by
  rw [start_map]
  rfl

/-- The table of images, with which everything is moved. -/
theorem table_eq {pc : Nat} (hpc : pc ∈ old.boundaries) (maxStack maxLocals : UInt16) :
    (imagesFrom opcode (replacement.code.length + 1) 0
        (old.indexed maxStack maxLocals).code).toArray.getD (old.position pc) (old.position pc)
      = place opcode replacement old pc := by
  have hle := CodeReading.position_le hpc
  rw [imagesFrom_eq, Array.getD_eq_getD_getElem?, List.getElem?_toArray, List.getElem?_map,
    List.getElem?_range (by simpa [CodeReading.indexed] using Nat.lt_succ_of_le hle),
    Option.map_some, Option.getD_some, Nat.zero_add, CodeReading.indexed, start_map]
  rfl

end Replaced

/-- The new code was written after the returns were replaced by position. -/
structure ReturnsEdit (opcode : UInt8) (withFrames : Bool) (replacement old new : CodeReading)
    (edited : IndexedBody) : Prop where
  replacementClosed : replacement.Closed
  oldClosed : old.Closed
  body : ∃ ownStack ownLocals maxStack maxLocals, edited =
    (old.indexed maxStack maxLocals).replaceReturns opcode
      (replacement.fragment ownStack ownLocals)
  reading : new = edited.reading withFrames
  size : offsetIn edited.code edited.code.length ≤ 65535

namespace ReturnsEdit

open Replaced

variable {opcode : UInt8} {withFrames : Bool} {replacement old new : CodeReading}
  {edited : IndexedBody} (h : ReturnsEdit opcode withFrames replacement old new edited)
include h

/-! ## Instructions -/

theorem code_mapPositions (maxStack maxLocals : UInt16) :
    ((old.indexed maxStack maxLocals).mapPositions fun p =>
      (imagesFrom opcode (replacement.code.length + 1) 0
        (old.indexed maxStack maxLocals).code).toArray.getD p p).code
      = old.code.map fun p => p.2.mapLabels (place opcode replacement old) := by
  simp only [IndexedBody.mapPositions, CodeReading.indexed, List.map_map]
  refine List.map_congr_left fun p hp => ?_
  rw [Function.comp_apply, Instruction.mapLabels_mapLabels]
  exact Instruction.mapLabels_congr fun l hl =>
    table_eq (h.oldClosed.labels p hp l hl) maxStack maxLocals

/-- The positions of the images, in the terms of the moved instructions. -/
theorem images_mapPositions (maxStack maxLocals : UInt16) :
    imagesFrom opcode (replacement.code.length + 1) 0 (old.indexed maxStack maxLocals).code
      = imagesFrom opcode (replacement.code.length + 1) 0
        (old.code.map fun p => p.2.mapLabels (place opcode replacement old)) := by
  rw [← h.code_mapPositions maxStack maxLocals, IndexedBody.mapPositions, imagesFrom_mapLabels]

theorem code_edited : ∃ maxStack maxLocals, edited.code
    = spread opcode (replacement.fragment maxStack maxLocals) 0
      (old.code.map fun p => p.2.mapLabels (place opcode replacement old)) := by
  obtain ⟨ownStack, ownLocals, maxStack, maxLocals, rfl⟩ := h.body
  refine ⟨ownStack, ownLocals, ?_⟩
  rw [spread, CodeReading.length_fragment, ← h.images_mapPositions maxStack maxLocals,
    ← h.code_mapPositions maxStack maxLocals]
  simp only [IndexedBody.replaceReturns, CodeReading.length_fragment]
  rfl

theorem length_edited : edited.code.length
    = start opcode (replacement.code.length + 1) (old.code.map (·.2)) old.code.length := by
  obtain ⟨maxStack, maxLocals, hcode⟩ := h.code_edited
  rw [hcode, length_spread, CodeReading.length_fragment, List.length_map, start_map, start_map]
  rfl

theorem images : Images edited.code old.code.length
    (start opcode (replacement.code.length + 1) (old.code.map (·.2))) where
  increasing p q hpq hq := start_lt (Nat.succ_pos _) hpq (by rwa [List.length_map])
  inside := Nat.le_of_eq h.length_edited.symm

theorem place_le {pc : Nat} (hpc : pc ∈ old.boundaries) :
    place opcode replacement old pc ≤ edited.code.length := by
  rw [place_eq]
  exact h.images.le_length (CodeReading.position_le hpc)

theorem offset_new : new.offset = offsetIn edited.code := by
  funext p
  rw [h.reading, IndexedBody.offset_reading]

/-- Each instruction with the position of its image. -/
theorem zip_images (f : Label → Label) :
    (old.code.map fun p => p.2.mapLabels f).zip
      (imagesFrom opcode (replacement.code.length + 1) 0 (old.code.map fun p => p.2.mapLabels f))
      = old.code.map fun p => (p.2.mapLabels f, place opcode replacement old p.1) := by
  refine List.ext_getElem (by simp [imagesFrom_eq]) fun j _ hj => ?_
  have hj : j < old.code.length := by rwa [List.length_map] at hj
  have hposition := h.oldClosed.position_fst hj
  simp only [imagesFrom_eq, List.getElem_zip, List.getElem_map, List.getElem_range, start_map,
    Nat.zero_add, Prod.mk.injEq, true_and, place, hposition]
  rfl

/-- An image at its offsets. -/
theorem mapIdx_block {maxStack maxLocals : UInt16} (p : Nat × Instruction) :
    (block opcode (replacement.fragment maxStack maxLocals)
        (p.2.mapLabels (place opcode replacement old)) (place opcode replacement old p.1)).mapIdx
        (fun j i => (new.offset (place opcode replacement old p.1 + j), i.mapLabels new.offset))
      = image opcode replacement old new p := by
  have hsame : isReturn opcode (p.2.mapLabels (place opcode replacement old))
      = isReturn opcode p.2 := rfl
  rw [block, hsame, image]
  split_ifs
  · have hcopy := h.replacementClosed.mapIdx_eq_relocate new.offset
      (· + place opcode replacement old p.1 + 1)
    have hcode : (replacement.fragment maxStack maxLocals).code.map
        (·.mapLabels (· + place opcode replacement old p.1 + 1))
        = replacement.code.map fun q =>
          q.2.mapLabels ((· + place opcode replacement old p.1 + 1) ∘ replacement.position) := by
      simp [CodeReading.fragment, Function.comp_def]
    have hrebased : rebased opcode replacement old new p.1
        = new.offset ∘ (· + place opcode replacement old p.1 + 1) ∘ replacement.position := by
      funext pc
      simp only [rebased, Function.comp_apply]
      congr 1
      omega
    rw [IndexedBody.expansion, List.mapIdx_cons, hcode, hrebased, ← hcopy]
    congr 2
    funext j i
    congr 2
    omega
  · rw [List.mapIdx_singleton, Nat.add_zero, Instruction.mapLabels_mapLabels]
    rfl

theorem code_new : new.code = old.code.flatMap (image opcode replacement old new) := by
  obtain ⟨maxStack, maxLocals, hcode⟩ := h.code_edited
  have hplaced : new.code = Instruction.placed edited.code := by
    rw [h.reading]
    rfl
  have hspread := mapIdx_spread opcode (replacement.fragment maxStack maxLocals)
    (fun j i => (new.offset j, i.mapLabels new.offset)) 0
    (old.code.map fun p => p.2.mapLabels (place opcode replacement old))
  simp only [Nat.zero_add, ← hcode] at hspread
  rw [hplaced, Instruction.placed_eq_mapIdx, ← h.offset_new, hspread, CodeReading.length_fragment,
    h.zip_images, List.flatMap_map]
  exact List.flatMap_congr fun p _ => h.mapIdx_block p

/-! ## Ranges -/

theorem toNat_moved {pc : Nat} (hpc : pc ∈ old.boundaries) :
    (offsetIn edited.code (place opcode replacement old pc)).toUInt16.toNat
      = moved opcode replacement old new pc := by
  rw [moved, h.offset_new]
  exact IndexedBody.toNat_offsetIn h.size (h.place_le hpc)

/-- The instructions of an image stand between its position and the next. -/
theorem mem_image {i : Nat} (hi : i < old.code.length) {q : Nat × Instruction}
    (hq : q ∈ image opcode replacement old new old.code[i]) :
    ∃ j, start opcode (replacement.code.length + 1) (old.code.map (·.2)) i ≤ j ∧
      j < start opcode (replacement.code.length + 1) (old.code.map (·.2)) (i + 1) ∧
      q.1 = new.offset j := by
  have hposition := h.oldClosed.position_fst hi
  have hplace : place opcode replacement old old.code[i].1
      = start opcode (replacement.code.length + 1) (old.code.map (·.2)) i := by
    rw [place_eq, hposition]
  rw [start_succ (by rwa [List.length_map]), List.getElem_map]
  rw [image] at hq
  split_ifs at hq ⊢
  · rcases List.mem_cons.mp hq with rfl | hq
    · exact ⟨_, Nat.le_refl _, by omega, by rw [moved, hplace]⟩
    · obtain ⟨r, hr, rfl⟩ := List.mem_map.mp hq
      obtain ⟨t, ht, rfl⟩ := List.getElem_of_mem hr
      refine ⟨start opcode (replacement.code.length + 1) (old.code.map (·.2)) i + 1 + t, by omega,
        by omega, ?_⟩
      simp only [rebased, hplace]
      rw [h.replacementClosed.position_fst ht]
  · obtain rfl := List.mem_singleton.mp hq
    exact ⟨_, Nat.le_refl _, by omega, by rw [moved, hplace]⟩

/-- A range from image to image covers the images of what it covered. -/
theorem covers_image {first last : Nat} (hfirst : first ∈ old.boundaries)
    (hlast : last ∈ old.boundaries) {p q : Nat × Instruction} (hp : p ∈ old.code)
    (hq : q ∈ image opcode replacement old new p) :
    Covers (moved opcode replacement old new first) (moved opcode replacement old new last) q.1 ↔
      Covers first last p.1 := by
  obtain ⟨i, hi, rfl⟩ := List.getElem_of_mem hp
  obtain ⟨j, hlow, hhigh, hqj⟩ := h.mem_image hi hq
  rw [hqj, moved, moved, place_eq, place_eq, h.offset_new, CodeReading.fst_getElem hi]
  exact h.images.covers_iff h.oldClosed rfl hfirst hlast hi hlow hhigh

/-! ## Tables -/

theorem tables_edited :
    edited.handlers = old.handlers.map (fun e => {
        start := place opcode replacement old e.start.toNat
        stop := place opcode replacement old e.stop.toNat
        handler := place opcode replacement old e.handler.toNat
        catchType := e.catchType }) ∧
      edited.lines = old.lines.map (fun l => {
        start := place opcode replacement old l.start.toNat
        line := l.line }) ∧
      edited.localVariables = old.localVariables.map (fun v => {
        start := place opcode replacement old v.start.toNat
        stop := place opcode replacement old v.stop
        entry := v }) ∧
      edited.localVariableTypes = old.localVariableTypes.map (fun v => {
        start := place opcode replacement old v.start.toNat
        stop := place opcode replacement old v.stop
        entry := v }) := by
  obtain ⟨_, _, maxStack, maxLocals, rfl⟩ := h.body
  simp only [IndexedBody.replaceReturns, IndexedBody.mapPositions, CodeReading.length_fragment]
  refine ⟨?_, ?_, ?_, ?_⟩
  · simp only [CodeReading.indexed, List.map_map]
    refine List.map_congr_left fun e he => ?_
    obtain ⟨hstart, hstop, hhandler⟩ := h.oldClosed.handlers e he
    rw [← table_eq hstart maxStack maxLocals, ← table_eq hstop maxStack maxLocals,
      ← table_eq hhandler maxStack maxLocals]
    rfl
  · simp only [CodeReading.indexed, List.map_map]
    refine List.map_congr_left fun l hl => ?_
    rw [← table_eq (h.oldClosed.tables.lines l hl) maxStack maxLocals]
    rfl
  · simp only [CodeReading.indexed, List.map_map]
    refine List.map_congr_left fun v hv => ?_
    obtain ⟨hstart, hstop⟩ := h.oldClosed.tables.localVariables v hv
    rw [← table_eq hstart maxStack maxLocals, ← table_eq hstop maxStack maxLocals]
    rfl
  · simp only [CodeReading.indexed, List.map_map]
    refine List.map_congr_left fun v hv => ?_
    obtain ⟨hstart, hstop⟩ := h.oldClosed.tables.localVariableTypes v hv
    rw [← table_eq hstart maxStack maxLocals, ← table_eq hstop maxStack maxLocals]
    rfl

theorem handlers_new :
    List.Forall₂ (Handler opcode replacement old new) old.handlers new.handlers := by
  have hrows : new.handlers = edited.handlers.map (·.entryIn edited.code) := by
    rw [h.reading]
    rfl
  rw [hrows, h.tables_edited.1, List.map_map, List.forall₂_map_right_iff, List.forall₂_same]
  intro e he
  obtain ⟨hstart, hstop, hhandler⟩ := h.oldClosed.handlers e he
  refine ⟨rfl, h.toNat_moved hhandler, fun p hp q hq => ?_⟩
  simp only [Function.comp_apply, IndexedHandler.entryIn, h.toNat_moved hstart, h.toNat_moved hstop]
  exact h.covers_image hstart hstop hp hq

theorem lines_new : List.Forall₂ (Line opcode replacement old new) old.lines new.lines := by
  have hrows : new.lines = edited.lines.map (·.entryIn edited.code) := by
    rw [h.reading]
    rfl
  rw [hrows, h.tables_edited.2.1, List.map_map, List.forall₂_map_right_iff, List.forall₂_same]
  exact fun l hl => ⟨rfl, h.toNat_moved (h.oldClosed.tables.lines l hl)⟩

/-- Both tables of variables are moved alike. -/
theorem ranges_new {rows : List VariableEntry}
    (hrows : ∀ v ∈ rows, v.start.toNat ∈ old.boundaries ∧ v.stop ∈ old.boundaries) :
    List.Forall₂ (Range opcode replacement old new) rows
      ((rows.map fun v => IndexedRange.mk (place opcode replacement old v.start.toNat)
        (place opcode replacement old v.stop) v).map (·.entryIn edited.code)) := by
  rw [List.map_map, List.forall₂_map_right_iff, List.forall₂_same]
  intro v hv
  obtain ⟨hstart, hstop⟩ := hrows v hv
  have hle : place opcode replacement old v.start.toNat ≤ place opcode replacement old v.stop := by
    have hnot : ¬ old.position v.stop < old.position v.start.toNat := by
      rw [h.oldClosed.position_lt_iff hstop hstart, VariableEntry.stop]
      omega
    rw [place_eq, place_eq]
    exact h.images.le (Nat.le_of_not_lt hnot) (CodeReading.position_le hstop)
  have hstartNew := h.toNat_moved hstart
  have hstopNew : (IndexedRange.entryIn edited.code ⟨place opcode replacement old v.start.toNat,
      place opcode replacement old v.stop, v⟩).stop = moved opcode replacement old new v.stop := by
    rw [IndexedBody.stop_entryIn h.size hle (h.place_le hstop), moved, h.offset_new]
  refine ⟨rfl, rfl, rfl, hstartNew, hstopNew, fun p hp q hq => ?_⟩
  rw [Function.comp_apply, hstopNew]
  simp only [IndexedRange.entryIn, hstartNew]
  exact h.covers_image hstart hstop hp hq

/-! ## Frames -/

theorem place_lt_place {a b : Nat} (ha : a ∈ old.boundaries) (hb : b ∈ old.boundaries)
    (hlt : a < b) : place opcode replacement old a < place opcode replacement old b := by
  rw [place_eq, place_eq]
  exact h.images.increasing _ _ ((h.oldClosed.position_lt_iff ha hb).mpr hlt)
    (CodeReading.position_le hb)

/-- A copy ends before the image of what comes after the return. -/
theorem copy_le {p : Nat × Instruction} (hp : p ∈ old.code) (hreturn : isReturn opcode p.2)
    {a : Nat} (ha : a ∈ old.boundaries) (hlt : p.1 < a) :
    place opcode replacement old p.1 + 1 + replacement.code.length
      ≤ place opcode replacement old a := by
  obtain ⟨i, hi, rfl⟩ := List.getElem_of_mem hp
  have hposition := h.oldClosed.position_fst hi
  have hnext : i + 1 ≤ old.position a := by
    have hlt := (h.oldClosed.position_lt_iff (CodeReading.fst_mem_boundaries hp) ha).mpr hlt
    rwa [hposition] at hlt
  have hle := h.images.le hnext (CodeReading.position_le ha)
  rw [start_succ (by rwa [List.length_map]), List.getElem_map, if_pos hreturn] at hle
  rw [place_eq, place_eq, hposition]
  omega

/-- A copy ends inside the code. -/
theorem copy_le_length {p : Nat × Instruction} (hp : p ∈ old.code) (hreturn : isReturn opcode p.2) :
    place opcode replacement old p.1 + 1 + replacement.code.length ≤ edited.code.length := by
  have hend : old.size ∈ old.boundaries := by
    rw [← CodeReading.offset_length]
    exact CodeReading.offset_mem (Nat.le_refl _)
  have hlt : p.1 < old.size := by
    obtain ⟨i, hi, rfl⟩ := List.getElem_of_mem hp
    rw [CodeReading.fst_getElem hi, ← CodeReading.offset_length]
    exact h.oldClosed.offset_lt hi (Nat.le_refl _)
  exact Nat.le_trans (h.copy_le hp hreturn hend hlt) (h.place_le hend)

/-- The frames of the copy for an old instruction, by position. -/
theorem frames_edited : edited.frames
    = old.code.flatMap (fun p =>
        if isReturn opcode p.2 then replacement.frames.map (·.mapOffsets fun pc =>
          place opcode replacement old p.1 + 1 + replacement.position pc)
        else []) ++
      old.frames.map (·.mapOffsets (place opcode replacement old)) := by
  have hlength : edited.code.length ≤ 65535 :=
    Nat.le_trans (Instruction.le_offsetIn (Nat.le_refl _)) h.size
  obtain ⟨ownStack, ownLocals, maxStack, maxLocals, hbody⟩ := h.body
  have hframes : edited.frames
      = ((old.code.map fun p => p.2.mapLabels (place opcode replacement old)).zip
          (imagesFrom opcode (replacement.code.length + 1) 0
            (old.code.map fun p => p.2.mapLabels (place opcode replacement old)))).flatMap
          (fun p => if isReturn opcode p.1 then
            IndexedBody.expansionFrames (replacement.fragment ownStack ownLocals) p.2 else []) ++
        (old.frames.map (·.mapOffsets old.position)).map (·.mapOffsets fun p =>
          (imagesFrom opcode (replacement.code.length + 1) 0
            (old.indexed maxStack maxLocals).code).toArray.getD p p) := by
    rw [← h.images_mapPositions maxStack maxLocals, ← h.code_mapPositions maxStack maxLocals, hbody]
    simp only [IndexedBody.replaceReturns, CodeReading.length_fragment]
    rfl
  rw [hframes, h.zip_images, List.flatMap_map, List.map_map]
  congr 1
  · refine List.flatMap_congr fun p hp => ?_
    have hsame : isReturn opcode (p.2.mapLabels (place opcode replacement old))
      = isReturn opcode p.2 := rfl
    simp only [hsame]
    split_ifs with hreturn
    · have hcopy := h.copy_le_length hp hreturn
      rw [IndexedBody.expansionFrames, CodeReading.fragment, List.map_map]
      refine List.map_congr_left fun s hs => ?_
      rw [Function.comp_apply, FrameState.mapOffsets_mapOffsets fun a ha => by
        have hle := CodeReading.position_le (h.replacementClosed.tables.frames s hs a ha)
        omega]
      refine FrameState.mapOffsets_congr fun a _ => ?_
      rw [Function.comp_apply]
      omega
    · rfl
  · refine List.map_congr_left fun s hs => ?_
    have hmem := h.oldClosed.tables.frames s hs
    rw [Function.comp_apply, FrameState.mapOffsets_mapOffsets fun a ha => by
      have hle := CodeReading.position_le (hmem a ha)
      have hself := Nat.le_trans (h.images.self_le (Nat.le_refl _)) h.images.inside
      omega]
    exact FrameState.mapOffsets_congr fun a ha => table_eq (hmem a ha) maxStack maxLocals

/-- The positions of the frames in the copy for an old instruction. -/
theorem map_pc_frames_edited : edited.frames.map (·.pc)
    = old.code.flatMap (fun p =>
        if isReturn opcode p.2 then replacement.frames.map fun s =>
          place opcode replacement old p.1 + 1 + replacement.position s.pc
        else []) ++
      old.frames.map fun s => place opcode replacement old s.pc := by
  rw [h.frames_edited, List.map_append, List.map_flatMap, List.map_map]
  congr 1
  refine List.flatMap_congr fun p _ => ?_
  split_ifs
  · rw [List.map_map]
    exact List.map_congr_left fun s _ => by rw [Function.comp_apply, FrameState.mapOffsets_eq]
  · rfl

section

variable (hpcs : ∀ s ∈ replacement.frames, 0 < s.pc ∧ s.pc < replacement.size)
include hpcs

theorem position_frame {s : FrameState} (hs : s ∈ replacement.frames) :
    0 < replacement.position s.pc ∧ replacement.position s.pc < replacement.code.length := by
  have hmem := h.replacementClosed.tables.frames s hs s.pc s.pc_mem_offsets
  have hend : replacement.size ∈ replacement.boundaries := by
    rw [← CodeReading.offset_length]
    exact CodeReading.offset_mem (Nat.le_refl _)
  have hstart : 0 ∈ replacement.boundaries := List.mem_of_mem_head? h.replacementClosed.start
  have hlow := (h.replacementClosed.position_lt_iff hstart hmem).mpr (hpcs s hs).1
  have hhigh := (h.replacementClosed.position_lt_iff hmem hend).mpr (hpcs s hs).2
  rw [h.replacementClosed.position_size] at hhigh
  exact ⟨by omega, hhigh⟩

/-- A frame of a copy stands between the images of the return and of what comes after it, and not at
the first instruction of the copy. -/
theorem frame_between {p : Nat × Instruction} (hp : p ∈ old.code) (hreturn : isReturn opcode p.2)
    {s : FrameState} (hs : s ∈ replacement.frames) {a : Nat} (ha : a ∈ old.boundaries) :
    place opcode replacement old a ≤ place opcode replacement old p.1 ∨
      place opcode replacement old p.1 + 1 + replacement.position s.pc
        < place opcode replacement old a := by
  have hposition := h.position_frame hpcs hs
  rcases Nat.lt_or_ge p.1 a with hlt | hge
  · have hcopy := h.copy_le hp hreturn ha hlt
    omega
  · rcases Nat.lt_or_eq_of_le hge with hlt | heq
    · exact .inl (Nat.le_of_lt (h.place_lt_place ha (CodeReading.fst_mem_boundaries hp) hlt))
    · rw [heq]
      exact .inl (Nat.le_refl _)

theorem frames_nodup (hown : replacement.frames.Pairwise (·.pc < ·.pc))
    (hbody : old.frames.Pairwise (·.pc < ·.pc)) : (edited.frames.map (·.pc)).Nodup := by
  rw [h.map_pc_frames_edited, List.nodup_append, List.nodup_flatMap]
  refine ⟨⟨fun p hp => ?_, ?_⟩, ?_, ?_⟩
  · split_ifs with hreturn
    · refine List.pairwise_map.mpr (hown.imp_of_mem fun {s t} hs ht hlt => ?_)
      have hs := h.replacementClosed.tables.frames s hs s.pc s.pc_mem_offsets
      have ht := h.replacementClosed.tables.frames t ht t.pc t.pc_mem_offsets
      have hposition := (h.replacementClosed.position_lt_iff hs ht).mpr hlt
      omega
    · exact List.nodup_nil
  · refine h.oldClosed.code_pairwise.imp_of_mem fun {p q} hp hq hlt => ?_
    have hp' := CodeReading.fst_mem_boundaries hp
    have hq' := CodeReading.fst_mem_boundaries hq
    have hplace := h.place_lt_place hp' hq' hlt
    intro x hxp hxq
    dsimp only at hxp hxq
    split_ifs at hxp hxq with hreturn hreturn'
    · obtain ⟨s, hs, rfl⟩ := List.mem_map.mp hxp
      obtain ⟨t, ht, hst⟩ := List.mem_map.mp hxq
      have hbetween := h.frame_between hpcs hp hreturn hs hq'
      omega
    all_goals simp at hxp hxq
  · refine List.pairwise_map.mpr (hbody.imp_of_mem fun {s t} hs ht hlt => ?_)
    have hs := h.oldClosed.tables.frames s hs s.pc s.pc_mem_offsets
    have ht := h.oldClosed.tables.frames t ht t.pc t.pc_mem_offsets
    exact Nat.ne_of_lt (h.place_lt_place hs ht hlt)
  · intro x hx y hy hxy
    obtain ⟨p, hp, hx⟩ := List.mem_flatMap.mp hx
    obtain ⟨t, ht, rfl⟩ := List.mem_map.mp hy
    have ht := h.oldClosed.tables.frames t ht t.pc t.pc_mem_offsets
    split_ifs at hx with hreturn
    · obtain ⟨s, hs, rfl⟩ := List.mem_map.mp hx
      have hbetween := h.frame_between hpcs hp hreturn hs ht
      omega
    · cases hx

theorem frames_inside {s : FrameState} (hs : s ∈ edited.frames) : s.pc ≤ edited.code.length := by
  have hs := List.mem_map_of_mem (f := (·.pc)) hs
  rw [h.map_pc_frames_edited] at hs
  rcases List.mem_append.mp hs with hs | hs
  · obtain ⟨p, hp, hs⟩ := List.mem_flatMap.mp hs
    split_ifs at hs with hreturn
    · obtain ⟨t, ht, hpc⟩ := List.mem_map.mp hs
      have hcopy := h.copy_le_length hp hreturn
      have hposition := h.position_frame hpcs ht
      omega
    · cases hs
  · obtain ⟨t, ht, hpc⟩ := List.mem_map.mp hs
    rw [← hpc]
    exact h.place_le (h.oldClosed.tables.frames t ht t.pc t.pc_mem_offsets)

/-- There are fewer than `2 ^ 16` frames, because none stands at the first instruction of a copy. -/
theorem length_frames_lt (hnodup : (edited.frames.map (·.pc)).Nodup)
    (hlen : old.frames.length < 65536) : edited.frames.length < 65536 := by
  have hlast : edited.code.length ≤ 65535 :=
    Nat.le_trans (Instruction.le_offsetIn (Nat.le_refl _)) h.size
  by_cases hcopies : ∃ p ∈ old.code, isReturn opcode p.2 ∧ replacement.frames ≠ []
  · obtain ⟨p, hp, hreturn, hframes⟩ := hcopies
    obtain ⟨s, hs⟩ := List.exists_mem_of_ne_nil _ hframes
    have hfree : ∀ pc ∈ edited.frames.map (·.pc), pc ≠ place opcode replacement old p.1 + 1 := by
      intro pc hpc
      rw [h.map_pc_frames_edited] at hpc
      rcases List.mem_append.mp hpc with hpc | hpc
      · obtain ⟨q, hq, hpc⟩ := List.mem_flatMap.mp hpc
        split_ifs at hpc with hreturn'
        · obtain ⟨t, ht, rfl⟩ := List.mem_map.mp hpc
          have hposition := h.position_frame hpcs ht
          have hbetween :=
            h.frame_between hpcs hq hreturn' ht (CodeReading.fst_mem_boundaries hp)
          omega
        · cases hpc
      · obtain ⟨t, ht, rfl⟩ := List.mem_map.mp hpc
        have ht := h.oldClosed.tables.frames t ht t.pc t.pc_mem_offsets
        have hposition := h.position_frame hpcs hs
        have hbetween := h.frame_between hpcs hp hreturn hs ht
        omega
    have hsub : edited.frames.map (·.pc)
        ⊆ (List.range (edited.code.length + 1)).erase (place opcode replacement old p.1 + 1) := by
      intro pc hpc
      rw [List.nodup_range.mem_erase_iff, List.mem_range]
      obtain ⟨s, hs, rfl⟩ := List.mem_map.mp hpc
      exact ⟨hfree _ hpc, Nat.lt_succ_of_le (h.frames_inside hpcs hs)⟩
    have hle := (hnodup.subperm hsub).length_le
    rw [List.length_map, List.length_erase_of_mem, List.length_range] at hle
    · omega
    · have hcopy := h.copy_le_length hp hreturn
      have hposition := h.position_frame hpcs hs
      rw [List.mem_range]
      omega
  · have hnone : old.code.flatMap (fun p =>
        if isReturn opcode p.2 then replacement.frames.map (·.mapOffsets fun pc =>
          place opcode replacement old p.1 + 1 + replacement.position pc)
        else []) = [] := by
      refine List.flatMap_eq_nil_iff.mpr fun p hp => ?_
      split_ifs with hreturn
      · refine List.map_eq_nil_iff.mpr ?_
        by_contra hframes
        exact hcopies ⟨p, hp, hreturn, hframes⟩
      · rfl
    rw [h.frames_edited, hnone, List.nil_append, List.length_map]
    exact hlen

end

theorem frames_new (hnodup : (edited.frames.map (·.pc)).Nodup) : List.Perm new.frames
    (if withFrames then
      old.code.flatMap (copiedFrames opcode replacement old new) ++
        old.frames.map (·.mapOffsets (moved opcode replacement old new))
    else []) := by
  have hlength : edited.code.length ≤ 65535 :=
    Nat.le_trans (Instruction.le_offsetIn (Nat.le_refl _)) h.size
  have hnew : new.frames = if withFrames then edited.framesByOffset else [] := by
    rw [h.reading]
    rfl
  rw [hnew]
  split_ifs
  · have hperm := ((IndexedBody.normalizeFrames_of_nodup hnodup).1.map
      (·.mapOffsets (offsetIn edited.code)))
    refine hperm.trans (.of_eq ?_)
    rw [h.frames_edited, List.map_append, List.map_flatMap, List.map_map]
    congr 1
    · refine List.flatMap_congr fun p hp => ?_
      rw [copiedFrames]
      split_ifs with hreturn
      · have hcopy := h.copy_le_length hp hreturn
        rw [List.map_map]
        refine List.map_congr_left fun s hs => ?_
        rw [Function.comp_apply, FrameState.mapOffsets_mapOffsets fun a ha => by
          have hle := CodeReading.position_le (h.replacementClosed.tables.frames s hs a ha)
          omega]
        exact FrameState.mapOffsets_congr fun a _ => by
          rw [Function.comp_apply, rebased, h.offset_new]
      · rfl
    · refine List.map_congr_left fun s hs => ?_
      rw [Function.comp_apply, FrameState.mapOffsets_mapOffsets fun a ha =>
        Nat.lt_succ_of_le (Nat.le_trans (h.place_le (h.oldClosed.tables.frames s hs a ha)) hlength)]
      exact FrameState.mapOffsets_congr fun a _ => by
        rw [Function.comp_apply, moved, h.offset_new]
  · exact .refl _

theorem increasing_new (hnodup : (edited.frames.map (·.pc)).Nodup)
    (hpcs : ∀ s ∈ replacement.frames, 0 < s.pc ∧ s.pc < replacement.size) :
    new.frames.Pairwise (·.pc < ·.pc) := by
  rw [h.reading]
  simp only [IndexedBody.reading, IndexedBody.tables]
  split_ifs
  · exact IndexedBody.framesByOffset_pairwise hnodup fun s hs => h.frames_inside hpcs hs
  · exact List.Pairwise.nil

theorem fits_edited : ∀ i ∈ edited.code, i.Fits := by
  obtain ⟨maxStack, maxLocals, hcode⟩ := h.code_edited
  rw [hcode]
  intro i hi
  obtain ⟨⟨j, start⟩, hj, hi⟩ := List.mem_flatMap.mp hi
  obtain ⟨p, hp, rfl⟩ := List.mem_map.mp (List.of_mem_zip hj).1
  rw [block] at hi
  split_ifs at hi
  · rcases List.mem_cons.mp hi with rfl | hi
    · exact (Emit.plain_simple rfl).toFits
    · obtain ⟨k, hk, rfl⟩ := List.mem_map.mp hi
      obtain ⟨q, hq, rfl⟩ := List.mem_map.mp hk
      exact (h.replacementClosed.fits q hq).mapLabels.mapLabels
  · obtain rfl := List.mem_singleton.mp hi
    exact (h.oldClosed.fits p hp).mapLabels

theorem other_edited : edited.other = old.other := by
  obtain ⟨_, _, _, _, rfl⟩ := h.body
  rfl

theorem replaced (hlabels : ∀ p ∈ replacement.code, ∀ l ∈ p.2.labels,
      ∃ q ∈ replacement.code, q.1 = l)
    (hpcs : ∀ s ∈ replacement.frames, 0 < s.pc ∧ s.pc < replacement.size)
    (hnodup : (edited.frames.map (·.pc)).Nodup) :
    Replaced opcode withFrames replacement old new where
  code := h.code_new
  copyLabels := hlabels
  bodyLabels := h.oldClosed.labels
  handlers := h.handlers_new
  lines := h.lines_new
  localVariables := by
    have hrows : new.localVariables = edited.localVariables.map (·.entryIn edited.code) := by
      rw [h.reading]
      rfl
    rw [hrows, h.tables_edited.2.2.1]
    exact h.ranges_new h.oldClosed.tables.localVariables
  localVariableTypes := by
    have hrows : new.localVariableTypes
        = edited.localVariableTypes.map (·.entryIn edited.code) := by
      rw [h.reading]
      rfl
    rw [hrows, h.tables_edited.2.2.2]
    exact h.ranges_new h.oldClosed.tables.localVariableTypes
  frames := h.frames_new hnodup
  increasing := h.increasing_new hnodup hpcs
  other := by
    rw [h.reading]
    exact h.other_edited

end ReturnsEdit

/-! ## Main result -/

/-- The jumps of an emitted method lead to its instructions. -/
theorem labels_of_ofEmitted {ctx : MethodContext} {stmts : List Stmt} {pool : ConstantPool}
    {e : EmittedCode} {d : CodeReading} (hemit : (emitMethod ctx stmts pool).1 = .ok e)
    (hd : CodeReading.ofEmitted e = .ok d) :
    ∀ p ∈ d.code, ∀ l ∈ p.2.labels, ∃ q ∈ d.code, q.1 = l := by
  obtain ⟨is, hencode, hfits, hlabels⟩ := Emit.labels_of_emitMethod hemit
  obtain ⟨code, hcode, rfl⟩ := CodeReading.ofEmitted_eq_ok.mp hd
  rw [Instruction.decode_encode hfits hencode] at hcode
  obtain rfl := Except.ok.inj hcode
  simp only [Instruction.placed_eq_mapIdx]
  intro p hp l hl
  obtain ⟨j, hj, rfl⟩ := List.mem_mapIdx.mp hp
  rw [Instruction.labels_mapLabels] at hl
  obtain ⟨m, hm, rfl⟩ := List.mem_map.mp hl
  have hm := hlabels _ (List.getElem_mem hj) m hm
  exact ⟨_, List.mem_mapIdx.mpr ⟨m, hm, rfl⟩, rfl⟩

/-- Code with replaced returns says what the old code said, if the counts in its tables fit. -/
theorem reading_replaceReturns {ctx : MethodContext} {stmts : List Stmt}
    {pool₀ pool pool' : ConstantPool} {e : EmittedCode} {fragment : Fragment} {opcode : UInt8}
    {entryLocals : List VerificationType} {withFrames : Bool} {c patched : CodeAttribute}
    (hemit : (emitMethod ctx stmts pool₀).1 = .ok e)
    (hfragment : Fragment.ofEmitted e = .ok fragment)
    (hone : c.attributes.countP (Attribute.isStackMapTable pool) ≤ 1)
    (hrun : (c.replaceReturns opcode fragment entryLocals withFrames).run.run pool
      = (.ok patched, pool'))
    (hcounts : ∀ body, IndexedBody.ofCode pool entryLocals c = .ok body →
      (body.replaceReturns opcode fragment).CountsFit entryLocals withFrames)
    (hindexable : pool'.Indexable) :
    ∃ replacement old new, CodeReading.ofEmitted e = .ok replacement ∧
      CodeReading.ofCode pool entryLocals c = .ok old ∧
      CodeReading.ofCode pool' entryLocals patched = .ok new ∧
      Replaced opcode withFrames replacement old new := by
  obtain ⟨replacement, hreplacement, hclosed, rfl⟩ := reading_of_ofEmitted hfragment
  obtain ⟨old, hold, holdClosed, hbody, hedit⟩ := reading_of_edit hrun hone
  obtain ⟨hsize, hread⟩ := hedit _ rfl
  have h : ReturnsEdit opcode withFrames replacement old _ _ :=
    ⟨hclosed, holdClosed, ⟨_, _, _, _, rfl⟩, rfl, hsize⟩
  have hframes : replacement.frames = e.frames ∧ replacement.size = e.code.length := by
    obtain ⟨code, -, rfl⟩ := CodeReading.ofEmitted_eq_ok.mp hreplacement
    exact ⟨rfl, rfl⟩
  obtain ⟨hoffsets, hpcs⟩ := Emit.frames_of_emitMethod hemit
  rw [← hframes.1] at hoffsets hpcs
  rw [← hframes.2] at hpcs
  obtain ⟨hlen, hbodyPairs⟩ := frames_of_ofCode hold hone
  have hnodup := h.frames_nodup hpcs hoffsets hbodyPairs
  have hcount := h.length_frames_lt hpcs hnodup hlen
  exact ⟨replacement, old, _, hreplacement, hold, hread h.other_edited h.fits_edited hnodup
    (fun _ => hcount) (hcounts _ hbody) hindexable,
    h.replaced (labels_of_ofEmitted hemit hreplacement) hpcs hnodup⟩

/-- The jump of a condition in the replacement leads into the copy. -/
theorem reading_replaceReturns_condition :
    ∃ replacement old new,
      CodeReading.ofEmitted ⟨[4, 5, 160, 0, 5, 4, 172, 5, 172], 2, 0, [⟨7, [], []⟩]⟩
        = .ok replacement ∧
      CodeReading.ofCode .empty [] ⟨1, 0, [3, 172], [⟨0, 2, 1, 0⟩], []⟩ = .ok old ∧
      CodeReading.ofCode .empty []
        ⟨3, 0, [3, 87, 4, 5, 160, 0, 5, 4, 172, 5, 172], [⟨0, 11, 1, 0⟩], []⟩ = .ok new ∧
      Replaced Opcode.ireturn false replacement old new := by
  have hemit : (emitMethod
      { className := ⟨"A"⟩, params := [], ret := ⟨"int"⟩, isStatic := true }
      [.ifThen (.compare .eq (.int 1) (.int 2)) [.ret (some (.int 1))], .ret (some (.int 2))]
      .empty).1 = .ok ⟨[4, 5, 160, 0, 5, 4, 172, 5, 172], 2, 0, [⟨7, [], []⟩]⟩ := by decide
  have hfragment : Fragment.ofEmitted ⟨[4, 5, 160, 0, 5, 4, 172, 5, 172], 2, 0, [⟨7, [], []⟩]⟩
      = .ok ⟨[⟨4, .empty⟩, ⟨5, .empty⟩, ⟨160, .branch 5⟩, ⟨4, .empty⟩, ⟨172, .empty⟩,
        ⟨5, .empty⟩, ⟨172, .empty⟩], [⟨5, [], []⟩], 2, 0⟩ := by decide
  have hbody : IndexedBody.ofCode .empty [] ⟨1, 0, [3, 172], [⟨0, 2, 1, 0⟩], []⟩
      = .ok ⟨[⟨3, .empty⟩, ⟨172, .empty⟩], 1, 0, [⟨0, 2, 1, 0⟩], [], [], [], [], []⟩ := by
    decide
  refine reading_replaceReturns hemit hfragment (by decide) rfl ?_ (Nat.zero_le _)
  intro body h
  obtain rfl := Except.ok.inj (hbody.symm.trans h)
  exact ⟨by decide, by decide, by decide, fun hframes => by cases hframes⟩

end ClassSynth
