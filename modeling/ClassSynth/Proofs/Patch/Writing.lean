import ClassSynth.Proofs.ConstantPool.Growth
import ClassSynth.Proofs.Patch.Reading
import Mathlib.Data.List.SplitBy

/-!
# What a written body says

A body that is written and read again has its instructions at the offsets of their layout, and every
position in its tables has become the offset at that position (`edits_toCode`), if the counts in
the tables fit in the 16 bits they are written with.
-/

namespace ClassSynth

/-! ## Debug tables -/

theorem LineEntry.reads (l : LineEntry) : LineEntry.read.Reads l.toBytes l :=
  (Reader.reads_u16 l.start).bind (Reader.reads_u16 l.line).map

/-- A written line number table is read as it was. -/
theorem LineEntry.parseTable_tableBytes {lines : List LineEntry} (h : lines.length < 65536) :
    parseTable (tableBytes lines) = .ok lines := by
  simpa [parseTable, tableBytes] using (Reader.reads_counted (fun l _ => l.reads) h).run []

theorem VariableEntry.reads (v : VariableEntry) : VariableEntry.read.Reads v.toBytes v := by
  have hreads : VariableEntry.read.Reads (Bytes.ofU16 v.start ++ (Bytes.ofU16 v.length ++
      (Bytes.ofU16 v.name ++ (Bytes.ofU16 v.descriptor ++ Bytes.ofU16 v.slot)))) v :=
    (Reader.reads_u16 v.start).bind <| (Reader.reads_u16 v.length).bind <|
      (Reader.reads_u16 v.name).bind <| (Reader.reads_u16 v.descriptor).bind <|
      (Reader.reads_u16 v.slot).map
  simpa [VariableEntry.toBytes] using hreads

/-- A written variable table is read as it was. -/
theorem VariableEntry.parseTable_tableBytes {entries : List VariableEntry}
    (h : entries.length < 65536) : parseTable (tableBytes entries) = .ok entries := by
  simpa [parseTable, tableBytes] using (Reader.reads_counted (fun v _ => v.reads) h).run []

/-! ## Frames in order -/

/-- Values with distinct keys fall into groups of one. -/
theorem splitBy_of_pairwise {α : Type} {r : α → α → Bool} {xs : List α}
    (h : xs.Pairwise fun a b => r a b = false) : xs.splitBy r = xs.map fun a => [a] := by
  induction xs with
  | nil => rfl
  | cons a xs ih =>
    obtain ⟨ha, hpairs⟩ := List.pairwise_cons.mp h
    cases xs with
    | nil => rfl
    | cons b xs =>
      have hsplit := List.splitBy_append_cons (r := r) (l := [a]) (a := b) xs (by
        intro x hx
        obtain rfl := Option.some.inj hx
        exact ha b List.mem_cons_self)
      rw [List.singleton_append] at hsplit
      rw [hsplit, ih hpairs]
      rfl

namespace IndexedBody

/-- Frames at distinct positions are only sorted. -/
theorem normalizeFrames_of_nodup {frames : List FrameState} (h : (frames.map (·.pc)).Nodup) :
    (normalizeFrames frames).Perm frames ∧ (normalizeFrames frames).Pairwise (·.pc < ·.pc) := by
  have hperm : (frames.mergeSort fun a b => a.pc ≤ b.pc).Perm frames := List.mergeSort_perm _ _
  have hsorted : (frames.mergeSort fun a b => a.pc ≤ b.pc).Pairwise fun a b => a.pc ≤ b.pc := by
    have hle : (frames.mergeSort fun a b => a.pc ≤ b.pc).Pairwise
        fun a b => decide (a.pc ≤ b.pc) = true :=
      List.pairwise_mergeSort (by intro a b c; simp only [decide_eq_true_eq]; omega)
        (by intro a b; simp only [Bool.or_eq_true, decide_eq_true_eq]; omega) frames
    exact hle.imp fun hab => of_decide_eq_true hab
  have hne : (frames.mergeSort fun a b => a.pc ≤ b.pc).Pairwise fun a b => a.pc ≠ b.pc :=
    List.pairwise_map.mp ((hperm.map _).nodup_iff.mpr h)
  have hstrict := (hsorted.and hne).imp fun hab => Nat.lt_of_le_of_ne hab.1 hab.2
  have hself : normalizeFrames frames = frames.mergeSort fun a b => a.pc ≤ b.pc := by
    rw [normalizeFrames, splitBy_of_pairwise (hne.imp fun hab => by simpa using hab),
      List.filterMap_map]
    exact List.filterMap_some
  rw [hself]
  exact ⟨hperm, hstrict⟩

/-- Frames in order stay as they are. -/
theorem normalizeFrames_of_pairwise {frames : List FrameState}
    (h : frames.Pairwise (·.pc < ·.pc)) : normalizeFrames frames = frames := by
  have hnodup : (frames.map (·.pc)).Nodup := List.pairwise_map.mpr (h.imp Nat.ne_of_lt)
  obtain ⟨hperm, hpairs⟩ := normalizeFrames_of_nodup hnodup
  exact hperm.eq_of_pairwise (fun a b _ _ hab hba => absurd (Nat.lt_trans hab hba) (by omega))
    hpairs h

/-! ## Steps -/

/-- Where the step succeeds it has kept all constants, and its result satisfies `P` in every later
pool. -/
def Edits {α : Type} (step : Editing α) (P : ConstantPool → α → Prop) : Prop :=
  ∀ p a q, step.run.run p = (.ok a, q) →
    p.Grows q ∧ ∀ r, q.Grows r → r.Indexable → P r a

namespace Edits

variable {α β : Type} {P : ConstantPool → α → Prop}

theorem pure {a : α} (h : ∀ r, P r a) : Edits (Pure.pure a) P := by
  intro p b q hrun
  obtain ⟨hb, rfl⟩ := Prod.mk.inj hrun
  obtain rfl := Except.ok.inj hb
  exact ⟨ConstantPool.Grows.refl p, fun r _ _ => h r⟩

theorem bind {step : Editing α} {f : α → Editing β} {Q : ConstantPool → β → Prop}
    (hstep : Edits step P) (hf : ∀ a, Edits (f a) fun r b => P r a → Q r b) :
    Edits (step >>= f) Q := by
  intro p b q hrun
  rcases hrest : step.run.run p with ⟨a | a, p'⟩
  · have herror : (step >>= f).run.run p = (.error a, p') := by
      rw [ExceptT.run_bind, StateT.run_bind, hrest]
      rfl
    rw [herror] at hrun
    cases hrun
  · have hok : (step >>= f).run.run p = (f a).run.run p' := by
      rw [ExceptT.run_bind, StateT.run_bind, hrest]
      rfl
    rw [hok] at hrun
    obtain ⟨hgrows, hP⟩ := hstep p a p' hrest
    obtain ⟨hgrows', hQ⟩ := hf a p' b q hrun
    refine ⟨hgrows.trans hgrows', fun r hr hindexable => ?_⟩
    exact hQ r hr hindexable (hP r (hgrows'.trans hr) hindexable)

theorem lift_bind {x : Except ClassFormatError α} {f : α → Editing β}
    {Q : ConstantPool → β → Prop} (h : ∀ a, x = .ok a → Edits (f a) Q) :
    Edits ((x : Editing α) >>= f) Q := by
  intro p b q hrun
  cases x with
  | error e => cases hrun
  | ok a => exact h a rfl p b q hrun

theorem adding {step : ConstantPool.Adding α} (hstep : ConstantPool.Adds step P) :
    Edits (step : Editing α) P := by
  intro p a q hrun
  obtain ⟨ha, rfl⟩ := Prod.mk.inj hrun
  obtain rfl := Except.ok.inj ha
  exact hstep p

end Edits

theorem edits_namedAttribute (name : AttributeName) (info : Bytes) :
    Edits (namedAttribute name info) fun r a => r.utf8 a.name = .ok name.text ∧ a.info = info :=
  (Edits.adding (ConstantPool.adds_utf8 name.text)).bind fun _ =>
    Edits.pure fun _ hname => ⟨hname, rfl⟩

/-- A written table is read as `t`, if each attribute with the name and the rows is. -/
theorem edits_tableAttribute {α β : Type} {name : AttributeName}
    {convert : α → Except ClassFormatError β} {write : List β → Bytes} {rows : List α}
    {entryLocals : List VerificationType} {t : CodeTables} (hempty : rows = [] → t = {})
    (hread : ∀ entries, rows.mapM convert = .ok entries → ∀ (r : ConstantPool) (a : Attribute),
      r.utf8 a.name = .ok name.text → a.info = write entries →
      CodeTables.ofAttribute r entryLocals a = .ok t) :
    Edits (tableAttribute name convert write rows) fun r as =>
      CodeTables.ofAttributes r entryLocals as = .ok t := by
  unfold tableAttribute
  by_cases hrows : rows.isEmpty
  · rw [if_pos hrows]
    refine Edits.pure fun r => ?_
    rw [hempty (List.isEmpty_iff.mp hrows)]
    rfl
  · rw [if_neg hrows]
    refine Edits.lift_bind fun entries hentries => ?_
    refine (edits_namedAttribute name (write entries)).bind fun a => Edits.pure ?_
    intro r ⟨hname, hinfo⟩
    exact CodeTables.ofAttributes_singleton (hread entries hentries r a hname hinfo)

end IndexedBody

/-! ## Rows by offset -/

open Instruction (offsetIn)

/-- An exception range by offset. -/
def IndexedHandler.entryIn (is : List Instruction) (h : IndexedHandler) : ExceptionEntry where
  start := (offsetIn is h.start).toUInt16
  stop := (offsetIn is h.stop).toUInt16
  handler := (offsetIn is h.handler).toUInt16
  catchType := h.catchType

/-- A source line by offset. -/
def IndexedLine.entryIn (is : List Instruction) (l : IndexedLine) : LineEntry where
  start := (offsetIn is l.start).toUInt16
  line := l.line

/-- The range of a variable by offset. -/
def IndexedRange.entryIn (is : List Instruction) (r : IndexedRange) : VariableEntry :=
  { r.entry with
    start := (offsetIn is r.start).toUInt16
    length := (offsetIn is r.stop).toUInt16 - (offsetIn is r.start).toUInt16 }

namespace IndexedBody

variable {entryLocals : List VerificationType} {withFrames : Bool} {body : IndexedBody}

/-- The frames in order, by offset. -/
def framesByOffset (body : IndexedBody) : List FrameState :=
  (normalizeFrames body.frames).map (·.mapOffsets (offsetIn body.code))

/-- The tables of the body, by offset. -/
def tables (withFrames : Bool) (body : IndexedBody) : CodeTables where
  lines := body.lines.map (·.entryIn body.code)
  localVariables := body.localVariables.map (·.entryIn body.code)
  localVariableTypes := body.localVariableTypes.map (·.entryIn body.code)
  frames := if withFrames then body.framesByOffset else []
  other := body.other

/-- The body by offset. -/
def reading (withFrames : Bool) (body : IndexedBody) : CodeReading :=
  { body.tables withFrames with
    code := Instruction.placed body.code
    size := offsetIn body.code body.code.length
    handlers := body.handlers.map (·.entryIn body.code) }

/-- The counts in the written tables fit in 16 bits: the rows of each debug table, and the locals
and stack entries of each full frame. -/
structure CountsFit (entryLocals : List VerificationType) (withFrames : Bool)
    (body : IndexedBody) : Prop where
  lines : body.lines.length < 65536
  localVariables : body.localVariables.length < 65536
  localVariableTypes : body.localVariableTypes.length < 65536
  frames : withFrames → ∀ f ∈ FrameState.toDeltas body.framesByOffset entryLocals, f.Fits

theorem handlerEntries_eq_ok {is : List Instruction} {handlers : List IndexedHandler}
    {entries : List ExceptionEntry}
    (h : handlers.mapM (handlerEntry (Instruction.layout is).toArray) = .ok entries) :
    entries = handlers.map (·.entryIn is) := by
  refine (Checked.mapM_eq_map (fun i _ e he => ?_) h).1
  simp only [handlerEntry, Checked.bind_eq_ok, Checked.pure_eq_ok] at he
  obtain ⟨start, hstart, stop, hstop, handler, hhandler, rfl⟩ := he
  rw [(offsetAt_eq_ok hstart).2, (offsetAt_eq_ok hstop).2, (offsetAt_eq_ok hhandler).2]
  rfl

theorem lineEntries_eq_ok {is : List Instruction} {lines : List IndexedLine}
    {entries : List LineEntry}
    (h : lines.mapM (lineEntry (Instruction.layout is).toArray) = .ok entries) :
    entries = lines.map (·.entryIn is) := by
  refine (Checked.mapM_eq_map (fun l _ e he => ?_) h).1
  simp only [lineEntry, Checked.bind_eq_ok, Checked.pure_eq_ok] at he
  obtain ⟨start, hstart, rfl⟩ := he
  rw [(offsetAt_eq_ok hstart).2]
  rfl

theorem rangeEntries_eq_ok {is : List Instruction} {ranges : List IndexedRange}
    {entries : List VariableEntry}
    (h : ranges.mapM (rangeEntry (Instruction.layout is).toArray) = .ok entries) :
    entries = ranges.map (·.entryIn is) := by
  refine (Checked.mapM_eq_map (fun r _ e he => ?_) h).1
  simp only [rangeEntry, Checked.bind_eq_ok, Checked.pure_eq_ok] at he
  obtain ⟨start, hstart, stop, hstop, rfl⟩ := he
  rw [(offsetAt_eq_ok hstart).2, (offsetAt_eq_ok hstop).2]
  rfl

theorem frameStates_eq_ok {is : List Instruction} {frames states : List FrameState}
    (h : frames.mapM (·.mapOffsetsM (offsetAt (Instruction.layout is).toArray)) = .ok states) :
    states = frames.map (·.mapOffsets (offsetIn is)) ∧
      ∀ s ∈ frames, ∀ a ∈ s.offsets, a ≤ is.length := by
  have hstep : ∀ a b, offsetAt (Instruction.layout is).toArray a = .ok b → b = offsetIn is a :=
    fun a b hab => (offsetAt_eq_ok hab).2
  obtain ⟨rfl, hall⟩ := Checked.mapM_eq_map
    (g := fun s : FrameState => s.mapOffsets (offsetIn is))
    (fun s _ t ht => (FrameState.mapOffsetsM_eq_ok hstep ht).1) h
  refine ⟨rfl, fun s hs a ha => ?_⟩
  exact (offsetAt_eq_ok ((FrameState.mapOffsetsM_eq_ok hstep (hall s hs)).2 a ha)).1

/-! ## Main result -/

theorem ofText?_text (name : AttributeName) : AttributeName.ofText? name.text = some name := by
  cases name <;> decide

theorem edits_linesAttribute (hcounts : body.CountsFit entryLocals withFrames) :
    Edits (tableAttribute .lineNumberTable
        (lineEntry (Instruction.layout body.code).toArray) LineEntry.tableBytes body.lines)
      fun r as => CodeTables.ofAttributes r entryLocals as
        = .ok { lines := body.lines.map (·.entryIn body.code) } := by
  refine edits_tableAttribute (fun hempty => by rw [hempty]; rfl)
    fun rows hrows r a hname hinfo => ?_
  obtain rfl := lineEntries_eq_ok hrows
  have hparse : LineEntry.parseTable a.info = .ok (body.lines.map (·.entryIn body.code)) := by
    rw [hinfo, LineEntry.parseTable_tableBytes]
    rw [List.length_map]
    exact hcounts.lines
  simp [CodeTables.ofAttribute, hname, ofText?_text, hparse, bind, Except.bind]

/-- Both tables of variables are written alike. -/
theorem edits_rangesAttribute (entryLocals : List VerificationType) (is : List Instruction)
    {name : AttributeName} {ranges : List IndexedRange} (make : List VariableEntry → CodeTables)
    (hempty : make [] = {})
    (hread : ∀ (r : ConstantPool) (a : Attribute) (rows : List VariableEntry),
      r.utf8 a.name = .ok name.text → VariableEntry.parseTable a.info = .ok rows →
      CodeTables.ofAttribute r entryLocals a = .ok (make rows))
    (hlen : ranges.length < 65536) :
    Edits (tableAttribute name (rangeEntry (Instruction.layout is).toArray)
        VariableEntry.tableBytes ranges)
      fun r as => CodeTables.ofAttributes r entryLocals as
        = .ok (make (ranges.map (·.entryIn is))) := by
  refine edits_tableAttribute (fun hranges => by rw [hranges]; exact hempty)
    fun rows hrows r a hname hinfo => ?_
  obtain rfl := rangeEntries_eq_ok hrows
  refine hread r a _ hname ?_
  rw [hinfo, VariableEntry.parseTable_tableBytes]
  rwa [List.length_map]

/-- Frames at distinct positions get distinct offsets, in order. -/
theorem framesByOffset_pairwise (hnodup : (body.frames.map (·.pc)).Nodup)
    (hinside : ∀ s ∈ body.frames, s.pc ≤ body.code.length) :
    body.framesByOffset.Pairwise (·.pc < ·.pc) := by
  obtain ⟨hperm, hpairs⟩ := normalizeFrames_of_nodup hnodup
  refine List.pairwise_map.mpr (hpairs.imp_of_mem fun {s t} _ ht hlt => ?_)
  simp only [FrameState.mapOffsets_eq]
  exact Instruction.offsetIn_lt hlt (hinside t (hperm.mem_iff.mp ht))

/-- The written stack map table is read as the frames by offset. -/
theorem edits_framesAttribute {bytes : Bytes} (hcode : Instruction.encode body.code = .ok bytes)
    (hcounts : body.CountsFit entryLocals withFrames) (hnodup : (body.frames.map (·.pc)).Nodup)
    (hlen : withFrames → body.frames.length < 65536) :
    Edits (tableAttribute .stackMapTable
        (·.mapOffsetsM (offsetAt (Instruction.layout body.code).toArray))
        (FrameState.tableBytes · entryLocals)
        (if withFrames then normalizeFrames body.frames else []))
      fun r as => CodeTables.ofAttributes r entryLocals as
        = .ok { frames := if withFrames then body.framesByOffset else [] } := by
  obtain ⟨hperm, hpairs⟩ := normalizeFrames_of_nodup hnodup
  refine edits_tableAttribute (fun hempty => ?_) fun states hstates r a hname hinfo => ?_
  · cases withFrames with
    | false => rfl
    | true =>
      rw [if_pos rfl] at hempty
      simp [framesByOffset, hempty]
  · have hread : (DeltaFrame.parseTable a.info).map (FrameState.ofDeltas · entryLocals)
        = .ok (if withFrames then body.framesByOffset else []) := by
      rw [hinfo]
      obtain ⟨rfl, hinside⟩ := frameStates_eq_ok hstates
      cases withFrames with
      | false => exact FrameState.ofDeltas_parseTable entryLocals (by simp) (by simp) (by simp) (by
          simp [FrameState.toDeltas, FrameState.toDeltasAux])
      | true =>
        simp only [if_true] at hinside ⊢
        refine FrameState.ofDeltas_parseTable entryLocals ?_ ?_ ?_ (hcounts.frames rfl)
        · rw [List.length_map, hperm.length_eq]
          exact hlen rfl
        · intro s hs
          obtain ⟨t, ht, rfl⟩ := List.mem_map.mp hs
          rw [FrameState.mapOffsets_eq]
          exact Nat.lt_succ_of_le (Instruction.offsetIn_le_of_encode hcode t.pc)
        · exact framesByOffset_pairwise hnodup fun s hs =>
            hinside s (hperm.mem_iff.mpr hs) s.pc s.pc_mem_offsets
    obtain ⟨deltas, hdeltas, hstates⟩ := Checked.map_eq_ok.mp hread
    simp [CodeTables.ofAttribute, hname, ofText?_text, hdeltas, hstates, bind, Except.bind]

/-- A written body is read as the body by offset, if its other attributes are still read so. -/
theorem edits_toCode (hfits : ∀ i ∈ body.code, i.Fits)
    (hcounts : body.CountsFit entryLocals withFrames) (hnodup : (body.frames.map (·.pc)).Nodup)
    (hlen : withFrames → body.frames.length < 65536) :
    Edits (body.toCode entryLocals withFrames) fun r c =>
      CodeTables.ofAttributes r entryLocals body.other = .ok { other := body.other } →
        CodeReading.ofCode r entryLocals c = .ok (body.reading withFrames) := by
  unfold toCode
  refine Edits.lift_bind fun bytes hcode => ?_
  refine Edits.lift_bind fun handlers hhandlers => ?_
  obtain rfl := handlerEntries_eq_ok hhandlers
  refine (edits_linesAttribute hcounts).bind fun lines => ?_
  refine (edits_rangesAttribute entryLocals body.code
    (fun rows => { localVariables := rows }) rfl ?_
    hcounts.localVariables).bind fun localVariables => ?_
  · intro r a rows hname hparse
    simp [CodeTables.ofAttribute, hname, ofText?_text, hparse, bind, Except.bind]
  refine (edits_rangesAttribute entryLocals body.code
    (fun rows => { localVariableTypes := rows }) rfl ?_
    hcounts.localVariableTypes).bind fun localVariableTypes => ?_
  · intro r a rows hname hparse
    simp [CodeTables.ofAttribute, hname, ofText?_text, hparse, bind, Except.bind]
  refine (edits_framesAttribute hcode hcounts hnodup hlen).bind fun frames => Edits.pure ?_
  intro r hframes htypes hvariables hlines hother
  have htables := CodeTables.ofAttributes_append (CodeTables.ofAttributes_append
    (CodeTables.ofAttributes_append (CodeTables.ofAttributes_append hlines hvariables) htypes)
    hframes) hother
  simp only [CodeReading.ofCode, Instruction.decode_encode hfits hcode, htables,
    Instruction.length_encode hcode]
  simp [CodeTables.append, reading, tables, bind, Except.bind]

end IndexedBody

/-! ## Edits -/

/-- Attributes without a table of their own are read the same in a larger pool. -/
theorem CodeTables.ofAttributes_other {pool r : ConstantPool}
    {entryLocals : List VerificationType} {as : List Attribute} {t : CodeTables}
    (h : ofAttributes pool entryLocals as = .ok t) (hgrows : pool.Grows r) :
    ofAttributes r entryLocals t.other = .ok { other := t.other } := by
  induction as generalizing t with
  | nil =>
    obtain rfl := Checked.pure_eq_ok.mp h
    rfl
  | cons a as ih =>
    obtain ⟨u, hu, v, hv, rfl⟩ := ofAttributes_cons.mp h
    have hfirst : ofAttributes r entryLocals u.other = .ok { other := u.other } := by
      obtain ⟨name, hname, hkind⟩ := Checked.bind_eq_ok.mp hu
      split at hkind
      case h_5 =>
        obtain rfl := Checked.pure_eq_ok.mp hkind
        refine ofAttributes_singleton ?_
        rw [ofAttribute, hgrows.utf8 hname]
        simp only [bind, Except.bind]
        rfl
      all_goals
        obtain ⟨rows, -, hkind⟩ := Checked.bind_eq_ok.mp hkind
        obtain rfl := Checked.pure_eq_ok.mp hkind
        rfl
    exact ofAttributes_append hfirst (ih hv)

theorem CodeAttribute.of_edit {pool pool' : ConstantPool} {entryLocals : List VerificationType}
    {withFrames : Bool} {change : IndexedBody → IndexedBody} {c patched : CodeAttribute}
    (hrun : (c.edit entryLocals withFrames change).run.run pool = (.ok patched, pool')) :
    ∃ body, IndexedBody.ofCode pool entryLocals c = .ok body ∧
      ((change body).toCode entryLocals withFrames).run.run pool = (.ok patched, pool') := by
  cases hbody : IndexedBody.ofCode pool entryLocals c with
  | error e =>
    have herror : (c.edit entryLocals withFrames change).run.run pool = (.error e, pool) := by
      change ((IndexedBody.ofCode pool entryLocals c : IndexedBody.Editing IndexedBody)
        >>= fun body => (change body).toCode entryLocals withFrames).run.run pool = _
      rw [hbody]
      rfl
    rw [herror] at hrun
    cases hrun
  | ok body =>
    refine ⟨body, rfl, ?_⟩
    rw [← hrun]
    change _ = ((IndexedBody.ofCode pool entryLocals c : IndexedBody.Editing IndexedBody)
      >>= fun body => (change body).toCode entryLocals withFrames).run.run pool
    rw [hbody]
    rfl

theorem IndexedBody.encode_of_toCode {pool pool' : ConstantPool}
    {entryLocals : List VerificationType} {withFrames : Bool} {body : IndexedBody}
    {c : CodeAttribute}
    (hrun : (body.toCode entryLocals withFrames).run.run pool = (.ok c, pool')) :
    ∃ bytes, Instruction.encode body.code = .ok bytes := by
  unfold toCode at hrun
  cases hcode : Instruction.encode body.code with
  | error e =>
    simp only [hcode] at hrun
    cases hrun
  | ok bytes => exact ⟨bytes, rfl⟩

/-- Code after an edit is read as the edited body by offset. -/
theorem reading_of_edit {pool pool' : ConstantPool} {entryLocals : List VerificationType}
    {withFrames : Bool} {change : IndexedBody → IndexedBody} {c patched : CodeAttribute}
    (hrun : (c.edit entryLocals withFrames change).run.run pool = (.ok patched, pool'))
    (hone : c.attributes.countP (Attribute.isStackMapTable pool) ≤ 1) :
    ∃ old, CodeReading.ofCode pool entryLocals c = .ok old ∧ old.Closed ∧
      IndexedBody.ofCode pool entryLocals c = .ok (old.indexed c.maxStack c.maxLocals) ∧
      ∀ body, body = change (old.indexed c.maxStack c.maxLocals) →
        offsetIn body.code body.code.length ≤ 65535 ∧
          (body.other = old.other → (∀ i ∈ body.code, i.Fits) →
            (body.frames.map (·.pc)).Nodup → (withFrames → body.frames.length < 65536) →
            body.CountsFit entryLocals withFrames → pool'.Indexable →
            CodeReading.ofCode pool' entryLocals patched = .ok (body.reading withFrames)) := by
  obtain ⟨before, hbefore, hwrite⟩ := CodeAttribute.of_edit hrun
  obtain ⟨old, hold, hclosed, rfl⟩ := reading_of_ofCode hbefore hone
  refine ⟨old, hold, hclosed, hbefore, ?_⟩
  rintro body rfl
  obtain ⟨bytes, hbytes⟩ := IndexedBody.encode_of_toCode hwrite
  refine ⟨Instruction.offsetIn_le_of_encode hbytes _, ?_⟩
  intro hother hfits hnodup hlen hcounts hindexable
  obtain ⟨hgrows, hread⟩ := IndexedBody.edits_toCode hfits hcounts hnodup hlen _ _ _ hwrite
  refine hread pool' (ConstantPool.Grows.refl pool') hindexable ?_
  simp only [CodeReading.ofCode, Checked.bind_eq_ok, Checked.pure_eq_ok] at hold
  obtain ⟨code, -, t, ht, rfl⟩ := hold
  rw [hother]
  exact CodeTables.ofAttributes_other ht hgrows

end ClassSynth
