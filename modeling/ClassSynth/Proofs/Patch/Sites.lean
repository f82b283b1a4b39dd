import ClassSynth.Proofs.ClassFile.Codec
import ClassSynth.Proofs.Patch.Entering
import ClassSynth.Proofs.Patch.Returns

/-!
# Where code returns

Code is cut into pieces: sites, which are sequences that end with a return, and single instructions
that do not return. No jump and no exception handler leads into the middle of a piece
(`CodeReading.ReturnsAt`), so what returns has run a site from its start.

Replaced returns are such sites (`returnsAt_replaceReturns`), and a prologue that does not return
leaves all sites as they are (`ReturnsAt.insertPrologue`). Labels would change with the offsets, so
sites have none.
-/

namespace ClassSynth

open CodeReading (relocate)

/-! ## Instructions without labels -/

namespace Instruction

variable {f : Label → Label}

theorem mapLabels_of_free {i : Instruction} (h : i.labels = []) : i.mapLabels f = i :=
  mapLabels_of_fixed fun _ hl => absurd (h ▸ hl) List.not_mem_nil

theorem map_mapLabels_of_free {is : List Instruction} (h : ∀ i ∈ is, i.labels = []) :
    is.map (·.mapLabels f) = is :=
  (List.map_congr_left fun i hi => mapLabels_of_free (h i hi)).trans (List.map_id is)

end Instruction

/-! ## Pieces -/

namespace CodeReading

/-- The offset of the first instruction of a piece, or of the end of the code. -/
def IsStart (d : CodeReading) (pieces : List (List (Nat × Instruction))) (pc : Nat) : Prop :=
  ∃ before after, pieces = before ++ after ∧ pc = d.offset before.flatten.length

/-- The pieces are sites and single instructions of other opcodes, and are entered at their starts
only. -/
structure ReturnsAt (site : List Instruction → Prop) (opcode : UInt8) (d : CodeReading)
    (pieces : List (List (Nat × Instruction))) : Prop where
  code : d.code = pieces.flatten
  cut : ∀ piece ∈ pieces, site (piece.map Prod.snd) ∨ ∃ p, piece = [p] ∧ p.2.opcode ≠ opcode
  labels : ∀ p ∈ d.code, ∀ l ∈ p.2.labels, d.IsStart pieces l
  handlers : ∀ e ∈ d.handlers, d.IsStart pieces e.handler.toNat

variable {site : List Instruction → Prop} {opcode : UInt8} {f : Nat → Nat}
  {piece : List (Nat × Instruction)}

theorem relocate_flatten (pieces : List (List (Nat × Instruction))) :
    relocate f pieces.flatten = (pieces.map (relocate f)).flatten :=
  List.map_flatten

/-- What has no labels is the same instructions elsewhere. -/
theorem map_snd_relocate (h : ∀ i ∈ piece.map Prod.snd, i.labels = []) :
    (relocate f piece).map Prod.snd = piece.map Prod.snd := by
  rw [relocate, List.map_map]
  exact List.map_congr_left fun p hp =>
    Instruction.mapLabels_of_free (h p.2 (List.mem_map_of_mem hp))

end CodeReading

/-! ## A prologue -/

namespace PrologueEdit

open Prologued CodeReading

variable {withFrames : Bool} {prologue old new : CodeReading} {edited : IndexedBody}
  {site : List Instruction → Prop} {opcode : UInt8} {pieces : List (List (Nat × Instruction))}

/-- The instructions of the prologue one by one, then the old pieces. -/
def newPieces (prologue old new : CodeReading) (pieces : List (List (Nat × Instruction))) :
    List (List (Nat × Instruction)) :=
  (relocate (shifted prologue new) prologue.code).map (fun p => [p]) ++
    pieces.map (relocate (moved prologue old new))

theorem flatten_singletons {α : Type} (xs : List α) : (xs.map fun x => [x]).flatten = xs := by
  induction xs with
  | nil => rfl
  | cons x xs ih => rw [List.map_cons, List.flatten_cons, ih, List.singleton_append]

theorem flatten_newPieces : (newPieces prologue old new pieces).flatten =
    relocate (shifted prologue new) prologue.code ++
      relocate (moved prologue old new) pieces.flatten := by
  rw [newPieces, List.flatten_append, flatten_singletons, relocate_flatten]

/-- The prologue may jump to each of its instructions, and behind the last one. -/
theorem isStart_shifted {pc : Nat} (hpc : pc ∈ prologue.boundaries) :
    new.IsStart (newPieces prologue old new pieces) (shifted prologue new pc) := by
  have hle := CodeReading.position_le hpc
  refine ⟨((relocate (shifted prologue new) prologue.code).take (prologue.position pc)).map
    (fun p => [p]), ((relocate (shifted prologue new) prologue.code).drop
      (prologue.position pc)).map (fun p => [p]) ++
        pieces.map (relocate (moved prologue old new)), ?_, ?_⟩
  · rw [← List.append_assoc, ← List.map_append, List.take_append_drop, newPieces]
  · rw [flatten_singletons, List.length_take, relocate, List.length_map, Nat.min_eq_left hle,
      shifted]

variable (h : PrologueEdit withFrames prologue old new edited)
include h

/-- What starts a piece starts its image. -/
theorem isStart_moved (hcode : old.code = pieces.flatten) {pc : Nat}
    (hpc : old.IsStart pieces pc) :
    new.IsStart (newPieces prologue old new pieces) (moved prologue old new pc) := by
  obtain ⟨before, after, rfl, rfl⟩ := hpc
  have hle : before.flatten.length ≤ old.code.length := by
    rw [hcode, List.flatten_append, List.length_append]
    exact Nat.le_add_right _ _
  refine ⟨newPieces prologue old new before, after.map (relocate (moved prologue old new)), ?_, ?_⟩
  · rw [newPieces, newPieces, List.map_append, List.append_assoc]
  · rw [moved, h.oldClosed.position_offset hle, flatten_newPieces, List.length_append, relocate,
      relocate, List.length_map, List.length_map, Nat.add_comm]

theorem returnsAt (hsite : ∀ is, site is → ∀ i ∈ is, i.labels = [])
    (hprologue : ∀ p ∈ prologue.code, p.2.opcode ≠ opcode)
    (hold : old.ReturnsAt site opcode pieces) :
    new.ReturnsAt site opcode (newPieces prologue old new pieces) where
  code := by rw [h.code_new, flatten_newPieces, hold.code]
  cut := by
    intro piece hpiece
    obtain hpiece | hpiece := List.mem_append.mp hpiece
    · obtain ⟨p, hp, rfl⟩ := List.mem_map.mp hpiece
      obtain ⟨q, hq, rfl⟩ := List.mem_map.mp hp
      exact .inr ⟨_, rfl, hprologue q hq⟩
    · obtain ⟨oldPiece, hmem, rfl⟩ := List.mem_map.mp hpiece
      obtain hsites | ⟨p, rfl, hp⟩ := hold.cut oldPiece hmem
      · exact .inl (by rwa [map_snd_relocate (hsite _ hsites)])
      · exact .inr ⟨_, rfl, hp⟩
  labels := by
    intro p hp l hl
    rw [h.code_new] at hp
    obtain hp | hp := List.mem_append.mp hp
    · obtain ⟨q, hq, rfl⟩ := List.mem_map.mp hp
      rw [Instruction.labels_mapLabels] at hl
      obtain ⟨m, hm, rfl⟩ := List.mem_map.mp hl
      exact isStart_shifted (h.prologueClosed.labels q hq m hm)
    · obtain ⟨q, hq, rfl⟩ := List.mem_map.mp hp
      rw [Instruction.labels_mapLabels] at hl
      obtain ⟨m, hm, rfl⟩ := List.mem_map.mp hl
      exact h.isStart_moved hold.code (hold.labels q hq m hm)
  handlers := by
    intro n hn
    obtain ⟨hlength, hget⟩ := List.forall₂_iff_get.mp h.handlers_new
    obtain ⟨j, hj, rfl⟩ := List.getElem_of_mem hn
    have hhandler := (hget j (hlength ▸ hj) hj).handler
    rw [List.get_eq_getElem] at hhandler
    rw [hhandler]
    exact h.isStart_moved hold.code (hold.handlers _ (List.getElem_mem _))

end PrologueEdit

/-! ## Replaced returns -/

namespace ReturnsEdit

open Replaced CodeReading
open IndexedBody (isReturn)

variable {opcode : UInt8} {withFrames : Bool} {replacement old new : CodeReading}
  {edited : IndexedBody} {site : List Instruction → Prop}

/-- What stands for an instruction: a return becomes a `pop` and a site. -/
def piecesOf (opcode : UInt8) (replacement old new : CodeReading) (p : Nat × Instruction) :
    List (List (Nat × Instruction)) :=
  if isReturn opcode p.2 then
    [[(moved opcode replacement old new p.1, .simple Opcode.pop)],
      relocate (rebased opcode replacement old new p.1) replacement.code]
  else [image opcode replacement old new p]

theorem flatten_piecesOf (p : Nat × Instruction) :
    (piecesOf opcode replacement old new p).flatten = image opcode replacement old new p := by
  rw [piecesOf, image]
  split_ifs <;> simp

theorem flatten_flatMap_piecesOf (code : List (Nat × Instruction)) :
    (code.flatMap (piecesOf opcode replacement old new)).flatten =
      code.flatMap (image opcode replacement old new) := by
  induction code with
  | nil => rfl
  | cons p code ih =>
    rw [List.flatMap_cons, List.flatMap_cons, List.flatten_append, flatten_piecesOf, ih]

theorem length_image (p : Nat × Instruction) :
    (image opcode replacement old new p).length = width opcode replacement p.2 := by
  rw [image, width]
  split_ifs <;> simp [relocate]

theorem isStart_moved {pc : Nat} : new.IsStart
    (old.code.flatMap (piecesOf opcode replacement old new))
    (moved opcode replacement old new pc) := by
  refine ⟨(old.code.take (old.position pc)).flatMap (piecesOf opcode replacement old new),
    (old.code.drop (old.position pc)).flatMap (piecesOf opcode replacement old new), ?_, ?_⟩
  · rw [← List.flatMap_append, List.take_append_drop]
  · rw [flatten_flatMap_piecesOf, List.length_flatMap, moved, place]
    simp only [length_image]

theorem returnsAt (h : ReturnsEdit opcode withFrames replacement old new edited)
    (hsite : site (replacement.code.map Prod.snd))
    (hlabels : ∀ i ∈ replacement.code.map Prod.snd, i.labels = []) (hpop : Opcode.pop ≠ opcode) :
    new.ReturnsAt site opcode (old.code.flatMap (piecesOf opcode replacement old new)) where
  code := by rw [h.code_new, flatten_flatMap_piecesOf]
  cut := by
    intro piece hpiece
    obtain ⟨p, -, hpiece⟩ := List.mem_flatMap.mp hpiece
    rw [piecesOf] at hpiece
    split_ifs at hpiece with hreturn
    · obtain rfl | hpiece := List.mem_cons.mp hpiece
      · exact .inr ⟨_, rfl, hpop⟩
      · obtain rfl := List.mem_singleton.mp hpiece
        exact .inl (by rwa [map_snd_relocate hlabels])
    · obtain rfl := List.mem_singleton.mp hpiece
      rw [image, if_neg hreturn]
      exact .inr ⟨_, rfl, fun hsame => hreturn (by simpa [isReturn] using hsame)⟩
  labels := by
    intro q hq l hl
    rw [h.code_new] at hq
    obtain ⟨p, -, hq⟩ := List.mem_flatMap.mp hq
    rw [image] at hq
    split_ifs at hq
    · obtain rfl | hq := List.mem_cons.mp hq
      · cases hl
      · obtain ⟨r, hr, rfl⟩ := List.mem_map.mp hq
        rw [Instruction.labels_mapLabels, hlabels r.2 (List.mem_map_of_mem hr)] at hl
        cases hl
    · obtain rfl := List.mem_singleton.mp hq
      rw [Instruction.labels_mapLabels] at hl
      obtain ⟨m, -, rfl⟩ := List.mem_map.mp hl
      exact isStart_moved
  handlers := by
    intro n hn
    obtain ⟨hlength, hget⟩ := List.forall₂_iff_get.mp h.handlers_new
    obtain ⟨j, hj, rfl⟩ := List.getElem_of_mem hn
    have hhandler := (hget j (hlength ▸ hj) hj).handler
    rw [List.get_eq_getElem] at hhandler
    rw [hhandler]
    exact isStart_moved

end ReturnsEdit

/-! ## Code of a method -/

namespace CodeReading

/-- The instructions and the exception ranges of code. -/
def flow (c : CodeAttribute) : Except ClassFormatError CodeReading :=
  (Instruction.decode c.code).map fun code => ofDecoded code c.code.length c.handlers

theorem flow_eq (pool : ConstantPool) (c : CodeAttribute) : flow c = ofCode pool [] c.bare := by
  rw [ofCode, CodeAttribute.bare, flow]
  cases Instruction.decode c.code <;> rfl

theorem handlers_of_flow {c : CodeAttribute} {d : CodeReading} (h : flow c = .ok d) :
    d.handlers = c.handlers := by
  obtain ⟨code, -, rfl⟩ := Checked.map_eq_ok.mp h
  rfl

end CodeReading

/-- Instructions and exception ranges behind replaced returns do not depend on the tables. -/
theorem IndexedBody.bare_replaceReturns {opcode : UInt8} {fragment fragment' : Fragment}
    {body body' : IndexedBody} (hfragment : fragment.code = fragment'.code)
    (hcode : body.code = body'.code) (hhandlers : body.handlers = body'.handlers) :
    (body.replaceReturns opcode fragment).code = (body'.replaceReturns opcode fragment').code ∧
      (body.replaceReturns opcode fragment).handlers
        = (body'.replaceReturns opcode fragment').handlers := by
  simp only [replaceReturns, mapPositions, expansion, hfragment, hcode, hhandlers, and_self]

/-- Returns were replaced in the instructions and the exception ranges of the code. -/
theorem exists_returnsEdit {opcode : UInt8} {e : EmittedCode} {fragment : Fragment}
    {pool pool' : ConstantPool} {entryLocals : List VerificationType} {withFrames : Bool}
    {c patched : CodeAttribute} (hfragment : Fragment.ofEmitted e = .ok fragment)
    (hrun : (c.replaceReturns opcode fragment entryLocals withFrames).run.run pool
      = (.ok patched, pool')) :
    ∃ replacement old new edited, ReturnsEdit opcode false replacement old new edited ∧
      CodeReading.flow c = .ok old ∧ CodeReading.flow patched = .ok new ∧
      fragment.code = replacement.code.map (fun p => p.2.mapLabels replacement.position) ∧
      Instruction.encode edited.code = .ok patched.code := by
  obtain ⟨first, hfirst, hfragmentCode, hfirstLabels⟩ := Fragment.code_of_ofEmitted hfragment
  obtain ⟨code, body, hold, hclosed, hcode, hhandlers, hencode, hwritten⟩ := bare_of_edit hrun
  let old := CodeReading.ofDecoded code c.code.length c.handlers
  let replacement := CodeReading.ofDecoded first e.code.length []
  let edited := (old.indexed 0 0).replaceReturns opcode (replacement.fragment 0 0)
  obtain ⟨hsameCode, hsameHandlers⟩ :
      (body.replaceReturns opcode fragment).code = edited.code ∧
        (body.replaceReturns opcode fragment).handlers = edited.handlers :=
    IndexedBody.bare_replaceReturns hfragmentCode hcode hhandlers
  rw [hsameCode] at hencode hwritten
  rw [hsameHandlers] at hwritten
  have h : ReturnsEdit opcode false replacement old (edited.reading false) edited := {
    replacementClosed := CodeReading.closed_ofDecoded hfirst hfirstLabels (by simp)
    oldClosed := hclosed
    body := ⟨_, _, _, _, rfl⟩
    reading := rfl
    size := Instruction.offsetIn_le_of_encode hencode _ }
  have hnew : CodeReading.flow patched = .ok (edited.reading false) := by
    rw [CodeReading.flow, Instruction.decode_encode h.fits_edited hencode, hwritten,
      Instruction.length_encode hencode]
    rfl
  refine ⟨replacement, old, edited.reading false, edited, h, ?_, hnew, hfragmentCode, hencode⟩
  rw [CodeReading.flow, hold]
  rfl

namespace CodeAttribute

/-- Each return of the code ends a site. -/
def ReturnsAt (site : List Instruction → Prop) (opcode : UInt8) (c : CodeAttribute) : Prop :=
  ∃ d pieces, CodeReading.flow c = .ok d ∧ d.ReturnsAt site opcode pieces

theorem ReturnsAt.mono {site site' : List Instruction → Prop} {opcode : UInt8} {c : CodeAttribute}
    (h : c.ReturnsAt site opcode) (hsite : ∀ is, site is → site' is) :
    c.ReturnsAt site' opcode := by
  obtain ⟨d, pieces, hd, hpieces⟩ := h
  exact ⟨d, pieces, hd, { hpieces with cut := fun piece hpiece =>
    (hpieces.cut piece hpiece).imp_left (hsite _) }⟩

/-- The code is as long as code may be, and has as many exception ranges as can be counted. -/
structure Short (c : CodeAttribute) : Prop where
  code : c.code.length ≤ 65535
  handlers : c.handlers.length ≤ 65535

section

variable {site : List Instruction → Prop} {opcode : UInt8} {e : EmittedCode} {fragment : Fragment}
  {pool pool' : ConstantPool} {entryLocals : List VerificationType} {withFrames : Bool}
  {c patched : CodeAttribute} (hfragment : Fragment.ofEmitted e = .ok fragment)

theorem short_of_encode {is : List Instruction} (hencode : Instruction.encode is = .ok c.code)
    (hhandlers : c.handlers.length ≤ 65535) : c.Short where
  code := by
    rw [Instruction.length_encode hencode]
    exact Instruction.offsetIn_le_of_encode hencode _
  handlers := hhandlers

include hfragment

/-- A prologue that does not return leaves the sites as they are. -/
theorem ReturnsAt.insertPrologue (h : c.ReturnsAt site opcode)
    (hcount : c.handlers.length ≤ 65535)
    (hsite : ∀ is, site is → ∀ i ∈ is, i.labels = [])
    (hprologue : ∀ i ∈ fragment.code, i.opcode ≠ opcode)
    (hrun : (c.insertPrologue fragment entryLocals withFrames).run.run pool
      = (.ok patched, pool')) : patched.ReturnsAt site opcode ∧ patched.Short := by
  obtain ⟨d, pieces, hd, hpieces⟩ := h
  obtain ⟨prologue, old, new, edited, hedit, -, hold, hnew, hlength, hstart, hencode, hhandlers⟩ :=
    exists_prologueEdit hfragment hrun
  rw [← CodeReading.flow_eq] at hold hnew
  obtain rfl := Except.ok.inj (hd.symm.trans hold)
  -- The fragment has the opcodes of the prologue.
  have hcode : fragment.code
      = prologue.code.map fun p => p.2.mapLabels (id ∘ prologue.position) := by
    rw [hedit.code_edited] at hstart
    exact (List.append_inj (List.prefix_iff_eq_append.mp hstart)
      (by rw [← hlength, List.length_map])).1
  refine ⟨⟨new, _, hnew, hedit.returnsAt hsite (fun p hp => ?_) hpieces⟩, short_of_encode hencode ?_⟩
  · exact hprologue (p.2.mapLabels (id ∘ prologue.position)) (hcode ▸ List.mem_map_of_mem hp)
  · rwa [← hhandlers, ← hedit.handlers_new.length_eq, CodeReading.handlers_of_flow hd]

/-- Replaced returns are sites. -/
theorem returnsAt_replaceReturns (hcount : c.handlers.length ≤ 65535)
    (hsite : site fragment.code) (hlabels : ∀ i ∈ fragment.code, i.labels = []) (hpop : Opcode.pop ≠ opcode)
    (hrun : (c.replaceReturns opcode fragment entryLocals withFrames).run.run pool
      = (.ok patched, pool')) : patched.ReturnsAt site opcode ∧ patched.Short := by
  obtain ⟨replacement, old, new, edited, hedit, hold, hnew, hcode, hencode⟩ :=
    exists_returnsEdit hfragment hrun
  have hfree : ∀ p ∈ replacement.code, p.2.labels = [] := by
    intro p hp
    have hnone := hlabels _ (hcode ▸ List.mem_map_of_mem hp)
    rwa [Instruction.labels_mapLabels, List.map_eq_nil_iff] at hnone
  have hsame : fragment.code = replacement.code.map Prod.snd := by
    rw [hcode]
    exact List.map_congr_left fun p hp => Instruction.mapLabels_of_free (hfree p hp)
  rw [hsame] at hsite hlabels
  refine ⟨⟨new, _, hnew, hedit.returnsAt hsite hlabels hpop⟩, short_of_encode hencode ?_⟩
  rwa [← CodeReading.handlers_of_flow hnew, ← hedit.handlers_new.length_eq,
    CodeReading.handlers_of_flow hold]

omit hfragment in
/-- Code without jumps that ends with the only return is a site by itself. -/
theorem returnsAt_of_encode {is : List Instruction} (hencode : Instruction.encode is = .ok c.code)
    (hfits : ∀ i ∈ is, i.Fits) (hlabels : ∀ i ∈ is, i.labels = []) (hsite : site is)
    (hhandlers : c.handlers = []) : c.ReturnsAt site opcode ∧ c.Short := by
  have hsame : (Instruction.placed is).map Prod.snd = is := by
    rw [Instruction.placed_eq_mapIdx]
    refine List.ext_getElem (by simp) fun k hk hk' => ?_
    simp only [List.getElem_map, List.getElem_mapIdx]
    exact Instruction.mapLabels_of_free (hlabels _ (List.getElem_mem hk'))
  have hflow : CodeReading.flow c
      = .ok (.ofDecoded (Instruction.placed is) c.code.length []) := by
    rw [CodeReading.flow, Instruction.decode_encode hfits hencode, hhandlers]
    rfl
  refine ⟨⟨_, [Instruction.placed is], hflow, ?_⟩, short_of_encode hencode (by simp [hhandlers])⟩
  exact {
    code := by simp [CodeReading.ofDecoded]
    cut := by
      intro piece hpiece
      obtain rfl := List.mem_singleton.mp hpiece
      exact .inl (hsame.symm ▸ hsite)
    labels := by
      intro p hp l hl
      rw [hlabels p.2 (hsame ▸ List.mem_map_of_mem hp)] at hl
      cases hl
    handlers := by
      intro e he
      cases he }

end

/-! ### Bytes -/

open Reader

/-- The exception ranges of code that was read can be counted. -/
theorem handlers_of_parse {info : Bytes} {c : CodeAttribute} (h : parse info = .ok c) :
    c.handlers.length ≤ 65535 := by
  have hentry : ExceptionEntry.read.Gives fun _ => True :=
    Gives.u16.bind fun _ _ => Gives.u16.bind fun _ _ => Gives.u16.bind fun _ _ =>
      Gives.u16.bind fun _ _ => .pure trivial
  have hattribute : Attribute.read.Gives fun _ => True :=
    Gives.u16.bind fun _ _ => Gives.u32.bind fun _ _ => (Gives.take _).bind fun _ _ =>
      .pure trivial
  have hread : CodeAttribute.read.Gives fun c => c.handlers.length ≤ 65535 :=
    Gives.u16.bind fun _ _ => Gives.u16.bind fun _ _ => Gives.u32.bind fun _ _ =>
      (Gives.take _).bind fun _ _ => hentry.counted.bind fun _ hhandlers =>
      hattribute.counted.bind fun _ _ => .pure (Nat.le_of_lt_succ hhandlers.1)
  exact hread.run h

/-- Code is read back, but perhaps for its attributes. -/
theorem of_parse_toBytes {c c' : CodeAttribute} (hshort : c.Short)
    (h : parse c.toBytes = .ok c') : c'.code = c.code ∧ c'.handlers = c.handlers := by
  have hlength : c.code.length.toUInt32.toNat = c.code.length := by
    rw [Nat.toUInt32_eq, UInt32.toNat_ofNat']
    exact Nat.mod_eq_of_lt (Nat.lt_of_le_of_lt hshort.code (by decide))
  have hcode : (take c.code.length.toUInt32.toNat).Reads c.code c.code := by
    rw [hlength]
    exact reads_take c.code
  have hentries := reads_counted (fun e _ => e.reads) (Nat.lt_succ_of_le hshort.handlers)
  obtain ⟨⟨_, _⟩, hrun, rfl⟩ := Checked.map_eq_ok.mp h
  simp only [toBytes, List.append_assoc] at hrun
  rw [read, bind_ok (reads_u16 c.maxStack _ _), bind_ok (reads_u16 c.maxLocals _ _),
    bind_ok (reads_u32 c.code.length.toUInt32 _ _), bind_ok (hcode _ _),
    bind_ok (hentries _ _)] at hrun
  obtain ⟨attributes, _, -, hend⟩ := bind_eq_ok.mp hrun
  obtain ⟨rfl, -⟩ := Prod.mk.inj (pure_eq_ok.mp hend)
  exact ⟨rfl, rfl⟩

theorem ReturnsAt.of_parse {site : List Instruction → Prop} {opcode : UInt8}
    {c c' : CodeAttribute} (h : c.ReturnsAt site opcode) (hshort : c.Short)
    (hparse : parse c.toBytes = .ok c') : c'.ReturnsAt site opcode ∧ c'.Short := by
  obtain ⟨hcode, hhandlers⟩ := of_parse_toBytes hshort hparse
  obtain ⟨d, pieces, hd, hpieces⟩ := h
  refine ⟨⟨d, pieces, ?_, hpieces⟩, hcode ▸ hshort.code, hhandlers ▸ hshort.handlers⟩
  rwa [CodeReading.flow, hcode, hhandlers]

end CodeAttribute

end ClassSynth
