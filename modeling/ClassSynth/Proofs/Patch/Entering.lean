import ClassSynth.Proofs.Kept
import ClassSynth.Proofs.Patch.Prologue

/-!
# Code with a prologue, without its tables

A run needs only the instructions and the exception ranges of a method. After
`CodeAttribute.insertPrologue` both are where `Prologued` says, whatever tables the code has: none
of the conditions on counts and stack map tables is needed for `Prologued` of bare code
(`exists_prologueEdit`).
-/

namespace ClassSynth

/-- The code without its tables. -/
def CodeAttribute.bare (c : CodeAttribute) : CodeAttribute :=
  { c with attributes := [] }

namespace IndexedBody

variable {pool : ConstantPool} {entryLocals : List VerificationType} {bounds : List Nat}

/-- Attributes add rows to the tables, and leave instructions and exception ranges alone. -/
theorem bare_of_addAttribute {body body' : IndexedBody} {a : Attribute}
    (h : addAttribute pool entryLocals bounds body a = .ok body') :
    body'.code = body.code ∧ body'.handlers = body.handlers := by
  obtain ⟨name, -, h⟩ := Checked.bind_eq_ok.mp h
  split at h
  · obtain ⟨deltas, -, h⟩ := Checked.bind_eq_ok.mp h
    obtain ⟨frames, -, h⟩ := Checked.bind_eq_ok.mp h
    obtain rfl := Checked.pure_eq_ok.mp h
    exact ⟨rfl, rfl⟩
  · obtain ⟨entries, -, h⟩ := Checked.bind_eq_ok.mp h
    obtain ⟨lines, -, h⟩ := Checked.bind_eq_ok.mp h
    obtain rfl := Checked.pure_eq_ok.mp h
    exact ⟨rfl, rfl⟩
  · obtain ⟨entries, -, h⟩ := Checked.bind_eq_ok.mp h
    obtain ⟨ranges, -, h⟩ := Checked.bind_eq_ok.mp h
    obtain rfl := Checked.pure_eq_ok.mp h
    exact ⟨rfl, rfl⟩
  · obtain ⟨entries, -, h⟩ := Checked.bind_eq_ok.mp h
    obtain ⟨ranges, -, h⟩ := Checked.bind_eq_ok.mp h
    obtain rfl := Checked.pure_eq_ok.mp h
    exact ⟨rfl, rfl⟩
  · obtain rfl := Checked.pure_eq_ok.mp h
    exact ⟨rfl, rfl⟩

theorem bare_of_addAttributes {as : List Attribute} {body body' : IndexedBody}
    (h : as.foldlM (addAttribute pool entryLocals bounds) body = .ok body') :
    body'.code = body.code ∧ body'.handlers = body.handlers := by
  induction as generalizing body with
  | nil =>
    obtain rfl := Checked.pure_eq_ok.mp h
    exact ⟨rfl, rfl⟩
  | cons a as ih =>
    obtain ⟨next, hnext, h⟩ := Checked.bind_eq_ok.mp h
    obtain ⟨hcode, hhandlers⟩ := bare_of_addAttribute hnext
    obtain ⟨hcode', hhandlers'⟩ := ih h
    exact ⟨hcode'.trans hcode, hhandlers'.trans hhandlers⟩

/-- Instructions and exception ranges behind a prologue do not depend on the tables. -/
theorem bare_insertPrologue {fragment fragment' : Fragment} {body body' : IndexedBody}
    (hfragment : fragment.code = fragment'.code) (hcode : body.code = body'.code)
    (hhandlers : body.handlers = body'.handlers) :
    (body.insertPrologue fragment).code = (body'.insertPrologue fragment').code ∧
      (body.insertPrologue fragment).handlers = (body'.insertPrologue fragment').handlers := by
  simp only [insertPrologue, mapPositions, hfragment, hcode, hhandlers, and_self]

/-- What a written body has of instructions and exception ranges. -/
theorem ensures_toCode (entryLocals : List VerificationType) (withFrames : Bool)
    (body : IndexedBody) : Ensures (body.toCode entryLocals withFrames) fun c =>
      Instruction.encode body.code = .ok c.code ∧
        c.handlers = body.handlers.map (·.entryIn body.code) := by
  unfold toCode
  refine (Ensures.lift fun bytes hbytes => hbytes).bind fun bytes hbytes => ?_
  refine (Ensures.lift fun handlers hhandlers => hhandlers).bind fun handlers hhandlers => ?_
  refine Ensures.trivial.bind fun lines _ => Ensures.trivial.bind fun locals _ => ?_
  refine Ensures.trivial.bind fun types _ => Ensures.trivial.bind fun frames _ => .pure ?_
  exact ⟨hbytes, handlerEntries_eq_ok hhandlers⟩

end IndexedBody

namespace CodeReading

/-- The instructions of code, with its exception ranges. -/
def ofDecoded (code : List (Nat × Instruction)) (size : Nat) (handlers : List ExceptionEntry) :
    CodeReading where
  code
  size
  handlers

theorem ofCode_bare {pool : ConstantPool} {c : CodeAttribute} {code : List (Nat × Instruction)}
    (h : Instruction.decode c.code = .ok code) :
    ofCode pool [] c.bare = .ok (ofDecoded code c.code.length c.handlers) := by
  rw [ofCode, CodeAttribute.bare, h]
  rfl

/-- Bare code is closed if its labels and its exception ranges are. -/
theorem closed_ofDecoded {bytes : Bytes} {code : List (Nat × Instruction)}
    {handlers : List ExceptionEntry} (h : Instruction.decode bytes = .ok code)
    (hlabels : ∀ p ∈ code, ∀ l ∈ p.2.labels, l ∈ ClassSynth.boundaries code bytes.length)
    (hhandlers : ∀ e ∈ handlers, e.start.toNat ∈ ClassSynth.boundaries code bytes.length ∧
      e.stop.toNat ∈ ClassSynth.boundaries code bytes.length ∧
      e.handler.toNat ∈ ClassSynth.boundaries code bytes.length) :
    (ofDecoded code bytes.length handlers).Closed where
  labels := hlabels
  handlers := hhandlers
  tables := CodeTables.Within.empty
  fits := Instruction.fits_of_decode h
  increasing := Instruction.boundaries_pairwise h
  start := Instruction.head?_boundaries h

end CodeReading

/-- What an edit does to the instructions and the exception ranges of code. -/
theorem bare_of_edit {pool pool' : ConstantPool} {entryLocals : List VerificationType}
    {withFrames : Bool} {change : IndexedBody → IndexedBody} {c patched : CodeAttribute}
    (hrun : (c.edit entryLocals withFrames change).run.run pool = (.ok patched, pool')) :
    ∃ code body, Instruction.decode c.code = .ok code ∧
      (CodeReading.ofDecoded code c.code.length c.handlers).Closed ∧
      body.code
        = ((CodeReading.ofDecoded code c.code.length c.handlers).indexed 0 0).code ∧
      body.handlers
        = ((CodeReading.ofDecoded code c.code.length c.handlers).indexed 0 0).handlers ∧
      Instruction.encode (change body).code = .ok patched.code ∧
      patched.handlers = (change body).handlers.map (·.entryIn (change body).code) := by
  obtain ⟨body, hbody, hwrite⟩ := CodeAttribute.of_edit hrun
  simp only [IndexedBody.ofCode, Checked.bind_eq_ok] at hbody
  obtain ⟨before, hbefore, code, hcode, handlers, hhandlers, hattributes⟩ := hbody
  obtain ⟨rfl, hlabels⟩ := IndexedBody.indexLabels_eq_ok hcode
  obtain ⟨rfl, hranges⟩ := IndexedBody.handlersOf_eq_ok hhandlers
  obtain ⟨hbodyCode, hbodyHandlers⟩ := IndexedBody.bare_of_addAttributes hattributes
  obtain ⟨hencode, hwritten⟩ := IndexedBody.ensures_toCode _ _ _ _ _ _ hwrite
  exact ⟨before, body, hbefore, CodeReading.closed_ofDecoded hbefore hlabels hranges, hbodyCode,
    hbodyHandlers, hencode, hwritten⟩

/-- The instructions of a fragment refer to positions of the code that it was made of. -/
theorem Fragment.code_of_ofEmitted {e : EmittedCode} {fragment : Fragment}
    (h : ofEmitted e = .ok fragment) : ∃ code, Instruction.decode e.code = .ok code ∧
      fragment.code = code.map (fun p =>
        p.2.mapLabels (CodeReading.ofDecoded code e.code.length []).position) ∧
      ∀ p ∈ code, ∀ l ∈ p.2.labels, l ∈ boundaries code e.code.length := by
  simp only [ofEmitted, Checked.bind_eq_ok, Checked.pure_eq_ok] at h
  obtain ⟨code, hdecode, own, hown, frames, -, rfl⟩ := h
  obtain ⟨rfl, hlabels⟩ := IndexedBody.indexLabels_eq_ok hown
  exact ⟨code, hdecode, rfl, hlabels⟩

namespace Instruction

/-- Whoever knows the positions of the offsets gets the instructions back. -/
theorem map_placed {is : List Instruction} {f : Nat → Nat}
    (h : ∀ i ∈ is, ∀ l ∈ i.labels, f (offsetIn is l) = l) :
    (placed is).map (fun p => p.2.mapLabels f) = is := by
  rw [placed_eq_mapIdx]
  refine List.ext_getElem (by simp) fun k hk hk' => ?_
  simp only [List.getElem_map, List.getElem_mapIdx, mapLabels_mapLabels]
  exact mapLabels_of_fixed fun l hl => h _ (List.getElem_mem hk') l hl

/-- The positions of the offsets of written instructions. -/
theorem position_placed {is : List Instruction} {bytes : Bytes} (hencode : encode is = .ok bytes)
    {l : Nat} (hl : l ≤ is.length) :
    (CodeReading.ofDecoded (placed is) bytes.length []).position (offsetIn is l) = l := by
  have hbounds :
      (CodeReading.ofDecoded (placed is) bytes.length []).boundaries = layout is := by
    rw [CodeReading.boundaries, CodeReading.ofDecoded, length_encode hencode]
    exact boundaries_placed is
  have hlt : l < (layout is).length := by
    rw [length_layout]
    exact Nat.lt_succ_of_le hl
  have hoffset : offsetIn is l = (layout is)[l] := by
    rw [offsetIn, List.getD_eq_getElem?_getD, List.getElem?_eq_getElem hlt, Option.getD_some]
  have hnodup : (layout is).Nodup := (layout_pairwise is).imp Nat.ne_of_lt
  rw [CodeReading.position, hbounds, hoffset]
  exact hnodup.idxOf_getElem _ _

end Instruction

/-- A fragment has the instructions that were written. -/
theorem Fragment.code_of_encode {is : List Instruction} {e : EmittedCode} {fragment : Fragment}
    (hfits : ∀ i ∈ is, i.Fits) (hencode : Instruction.encode is = .ok e.code)
    (hlabels : ∀ i ∈ is, ∀ l ∈ i.labels, l ≤ is.length) (h : ofEmitted e = .ok fragment) :
    fragment.code = is := by
  obtain ⟨code, hdecode, hcode, -⟩ := code_of_ofEmitted h
  obtain rfl := Except.ok.inj ((Instruction.decode_encode hfits hencode).symm.trans hdecode)
  rw [hcode]
  exact Instruction.map_placed fun i hi l hl =>
    Instruction.position_placed hencode (hlabels i hi l hl)

/-- A prologue was inserted into the instructions and the exception ranges of the code. -/
theorem exists_prologueEdit {e : EmittedCode} {fragment : Fragment} {pool pool' : ConstantPool}
    {entryLocals : List VerificationType} {withFrames : Bool} {c patched : CodeAttribute}
    (hfragment : Fragment.ofEmitted e = .ok fragment)
    (hrun : (c.insertPrologue fragment entryLocals withFrames).run.run pool
      = (.ok patched, pool')) :
    ∃ prologue old new edited, PrologueEdit false prologue old new edited ∧
      Prologued false prologue old new ∧ CodeReading.ofCode pool [] c.bare = .ok old ∧
      CodeReading.ofCode pool' [] patched.bare = .ok new ∧
      prologue.code.length = fragment.code.length ∧ fragment.code <+: edited.code ∧
      Instruction.encode edited.code = .ok patched.code ∧ new.handlers = patched.handlers := by
  obtain ⟨first, hfirst, hfragmentCode, hfirstLabels⟩ := Fragment.code_of_ofEmitted hfragment
  obtain ⟨code, body, hold, hclosed, hcode, hhandlers, hencode, hwritten⟩ := bare_of_edit hrun
  let old := CodeReading.ofDecoded code c.code.length c.handlers
  let prologue := CodeReading.ofDecoded first e.code.length []
  let edited := (old.indexed 0 0).insertPrologue (prologue.fragment 0 0)
  obtain ⟨hsameCode, hsameHandlers⟩ :
      (body.insertPrologue fragment).code = edited.code ∧
        (body.insertPrologue fragment).handlers = edited.handlers :=
    IndexedBody.bare_insertPrologue hfragmentCode hcode hhandlers
  rw [hsameCode] at hencode hwritten
  rw [hsameHandlers] at hwritten
  have h : PrologueEdit false prologue old (edited.reading false) edited := {
    prologueClosed := CodeReading.closed_ofDecoded hfirst hfirstLabels (by simp)
    oldClosed := hclosed
    body := ⟨_, _, _, _, rfl⟩
    reading := rfl
    size := Instruction.offsetIn_le_of_encode hencode _ }
  have hnew : CodeReading.ofCode pool' [] patched.bare = .ok (edited.reading false) := by
    rw [CodeReading.ofCode_bare (Instruction.decode_encode h.fits_edited hencode), hwritten,
      Instruction.length_encode hencode]
    rfl
  have hlength : prologue.code.length = fragment.code.length := by
    rw [hfragmentCode, List.length_map]
    rfl
  refine ⟨prologue, old, edited.reading false, edited, h, h.prologued List.Pairwise.nil,
    CodeReading.ofCode_bare hold, hnew, hlength, ?_, hencode, hwritten.symm⟩
  rw [hfragmentCode, h.code_edited]
  exact List.prefix_append _ _

end ClassSynth
