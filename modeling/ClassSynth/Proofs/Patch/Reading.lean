import ClassSynth.Proofs.Patch.Positions

/-!
# What a code attribute says

A reading of a code attribute has its instructions and the rows of all its tables, with offsets as
they stand in the class file. The indexed body of the attribute is the reading with the position of
each offset in its place (`reading_of_ofCode`), and every offset is the boundary of an instruction.
-/

namespace ClassSynth

/-! ## Rows -/

/-- The end of the range of a variable. -/
def VariableEntry.stop (v : VariableEntry) : Nat :=
  v.start.toNat + v.length.toNat

/-- An exception range by position. -/
def ExceptionEntry.indexed (bounds : List Nat) (e : ExceptionEntry) : IndexedHandler where
  start := bounds.idxOf e.start.toNat
  stop := bounds.idxOf e.stop.toNat
  handler := bounds.idxOf e.handler.toNat
  catchType := e.catchType

/-- A source line by position. -/
def LineEntry.indexed (bounds : List Nat) (l : LineEntry) : IndexedLine where
  start := bounds.idxOf l.start.toNat
  line := l.line

/-- The range of a variable by position. -/
def VariableEntry.indexed (bounds : List Nat) (v : VariableEntry) : IndexedRange where
  start := bounds.idxOf v.start.toNat
  stop := bounds.idxOf v.stop
  entry := v

/-! ## Tables -/

/-- Is the attribute a stack map table? -/
def Attribute.isStackMapTable (pool : ConstantPool) (a : Attribute) : Bool :=
  match pool.utf8 a.name with
  | .ok name => AttributeName.ofText? name == some .stackMapTable
  | .error _ => false

/-- The rows of the tables in a code attribute, and its other attributes. -/
structure CodeTables where
  lines : List LineEntry := []
  localVariables : List VariableEntry := []
  localVariableTypes : List VariableEntry := []
  frames : List FrameState := []
  other : List Attribute := []
  deriving DecidableEq, Repr

namespace CodeTables

/-- The rows of both. -/
def append (t u : CodeTables) : CodeTables where
  lines := t.lines ++ u.lines
  localVariables := t.localVariables ++ u.localVariables
  localVariableTypes := t.localVariableTypes ++ u.localVariableTypes
  frames := t.frames ++ u.frames
  other := t.other ++ u.other

/-- The rows of all. -/
def concat (ts : List CodeTables) : CodeTables :=
  ts.foldr append {}

/-- What one attribute says. Frames start from the locals at the start of the method. -/
def ofAttribute (pool : ConstantPool) (entryLocals : List VerificationType) (a : Attribute) :
    Except ClassFormatError CodeTables := do
  match AttributeName.ofText? (← pool.utf8 a.name) with
  | some .stackMapTable =>
    return { frames := FrameState.ofDeltas (← DeltaFrame.parseTable a.info) entryLocals }
  | some .lineNumberTable => return { lines := ← LineEntry.parseTable a.info }
  | some .localVariableTable => return { localVariables := ← VariableEntry.parseTable a.info }
  | some .localVariableTypeTable =>
    return { localVariableTypes := ← VariableEntry.parseTable a.info }
  | _ => return { other := [a] }

/-- What the attributes say together. -/
def ofAttributes (pool : ConstantPool) (entryLocals : List VerificationType)
    (attributes : List Attribute) : Except ClassFormatError CodeTables := do
  return concat (← attributes.mapM (ofAttribute pool entryLocals))

/-- Every offset in the tables is one of the boundaries. -/
structure Within (bounds : List Nat) (t : CodeTables) : Prop where
  lines : ∀ l ∈ t.lines, l.start.toNat ∈ bounds
  localVariables : ∀ v ∈ t.localVariables, v.start.toNat ∈ bounds ∧ v.stop ∈ bounds
  localVariableTypes : ∀ v ∈ t.localVariableTypes, v.start.toNat ∈ bounds ∧ v.stop ∈ bounds
  frames : ∀ s ∈ t.frames, ∀ a ∈ s.offsets, a ∈ bounds

@[simp] theorem nil_append (t : CodeTables) : append {} t = t := rfl

@[simp] theorem append_nil (t : CodeTables) : append t {} = t := by
  simp [append]

theorem append_assoc (t u v : CodeTables) : append (append t u) v = append t (append u v) := by
  simp [append]

theorem concat_append (ts us : List CodeTables) :
    concat (ts ++ us) = append (concat ts) (concat us) := by
  induction ts with
  | nil => rfl
  | cons t ts ih =>
    rw [List.cons_append, concat, List.foldr_cons, ← concat, ih, ← append_assoc]
    rfl

theorem Within.append {bounds : List Nat} {t u : CodeTables} (ht : t.Within bounds)
    (hu : u.Within bounds) : (t.append u).Within bounds where
  lines := List.forall_mem_append.mpr ⟨ht.lines, hu.lines⟩
  localVariables := List.forall_mem_append.mpr ⟨ht.localVariables, hu.localVariables⟩
  localVariableTypes := List.forall_mem_append.mpr ⟨ht.localVariableTypes, hu.localVariableTypes⟩
  frames := List.forall_mem_append.mpr ⟨ht.frames, hu.frames⟩

theorem Within.empty {bounds : List Nat} : Within bounds {} := by
  constructor <;> simp

theorem ofAttributes_cons {pool : ConstantPool} {entryLocals : List VerificationType}
    {a : Attribute} {as : List Attribute} {t : CodeTables} :
    ofAttributes pool entryLocals (a :: as) = .ok t ↔
      ∃ u, ofAttribute pool entryLocals a = .ok u ∧
        ∃ v, ofAttributes pool entryLocals as = .ok v ∧ t = u.append v := by
  simp only [ofAttributes, List.mapM_cons, Checked.bind_eq_ok, Checked.pure_eq_ok]
  constructor
  · rintro ⟨us, ⟨u, hu, vs, hvs, rfl⟩, rfl⟩
    exact ⟨u, hu, _, ⟨vs, hvs, rfl⟩, rfl⟩
  · rintro ⟨u, hu, _, ⟨vs, hvs, rfl⟩, rfl⟩
    exact ⟨u :: vs, ⟨u, hu, vs, hvs, rfl⟩, rfl⟩

theorem ofAttributes_singleton {pool : ConstantPool} {entryLocals : List VerificationType}
    {a : Attribute} {t : CodeTables} (ht : ofAttribute pool entryLocals a = .ok t) :
    ofAttributes pool entryLocals [a] = .ok t := by
  rw [ofAttributes, List.mapM_cons, ht]
  exact congrArg Except.ok (append_nil t)

theorem ofAttributes_append {pool : ConstantPool} {entryLocals : List VerificationType}
    {as bs : List Attribute} {t u : CodeTables} (ht : ofAttributes pool entryLocals as = .ok t)
    (hu : ofAttributes pool entryLocals bs = .ok u) :
    ofAttributes pool entryLocals (as ++ bs) = .ok (t.append u) := by
  simp only [ofAttributes, Checked.bind_eq_ok, Checked.pure_eq_ok] at ht hu ⊢
  obtain ⟨ts, hts, rfl⟩ := ht
  obtain ⟨us, hus, rfl⟩ := hu
  refine ⟨ts ++ us, ?_, concat_append ts us⟩
  rw [List.mapM_append, hts, hus]
  rfl

/-- Only a stack map table has frames. -/
theorem frames_of_ofAttribute {pool : ConstantPool} {entryLocals : List VerificationType}
    {a : Attribute} {t : CodeTables} (h : ofAttribute pool entryLocals a = .ok t) :
    (¬ a.isStackMapTable pool → t.frames = []) ∧
      ∃ deltas : List DeltaFrame,
        deltas.length < 65536 ∧ t.frames = FrameState.ofDeltas deltas entryLocals := by
  obtain ⟨name, hname, h⟩ := Checked.bind_eq_ok.mp h
  rw [Attribute.isStackMapTable, hname]
  split at h
  case h_1 hkind =>
    obtain ⟨deltas, hdeltas, h⟩ := Checked.bind_eq_ok.mp h
    obtain rfl := Checked.pure_eq_ok.mp h
    exact ⟨fun hnot => absurd (by simp [hkind]) hnot, deltas,
      DeltaFrame.length_of_parseTable hdeltas, rfl⟩
  case h_5 =>
    obtain rfl := Checked.pure_eq_ok.mp h
    exact ⟨fun _ => rfl, [], by simp, rfl⟩
  all_goals
    obtain ⟨rows, -, h⟩ := Checked.bind_eq_ok.mp h
    obtain rfl := Checked.pure_eq_ok.mp h
    exact ⟨fun _ => rfl, [], by simp, rfl⟩

theorem frames_eq_nil {pool : ConstantPool} {entryLocals : List VerificationType}
    {as : List Attribute} {t : CodeTables} (h : ofAttributes pool entryLocals as = .ok t)
    (hnone : ∀ a ∈ as, ¬ a.isStackMapTable pool) : t.frames = [] := by
  induction as generalizing t with
  | nil =>
    obtain rfl := Checked.pure_eq_ok.mp h
    rfl
  | cons a as ih =>
    obtain ⟨u, hu, v, hv, rfl⟩ := ofAttributes_cons.mp h
    rw [append, (frames_of_ofAttribute hu).1 (hnone a List.mem_cons_self),
      ih hv fun b hb => hnone b (List.mem_cons_of_mem _ hb), List.nil_append]

/-- The frames of several attributes, of which at most one is a stack map table. -/
theorem frames_of_ofAttributes {pool : ConstantPool} {entryLocals : List VerificationType}
    {as : List Attribute} {t : CodeTables} (h : ofAttributes pool entryLocals as = .ok t)
    (hone : as.countP (Attribute.isStackMapTable pool) ≤ 1) :
    ∃ deltas : List DeltaFrame,
      deltas.length < 65536 ∧ t.frames = FrameState.ofDeltas deltas entryLocals := by
  induction as generalizing t with
  | nil =>
    obtain rfl := Checked.pure_eq_ok.mp h
    exact ⟨[], by simp, rfl⟩
  | cons a as ih =>
    obtain ⟨u, hu, v, hv, rfl⟩ := ofAttributes_cons.mp h
    obtain ⟨hnone, hread⟩ := frames_of_ofAttribute hu
    rw [List.countP_cons] at hone
    by_cases ha : a.isStackMapTable pool
    · rw [if_pos ha] at hone
      have hv : v.frames = [] := by
        refine frames_eq_nil hv fun b hb => ?_
        exact List.countP_eq_zero.mp (by omega) b hb
      rw [append, hv, List.append_nil]
      exact hread
    · obtain ⟨deltas, hlen, hframes⟩ := ih hv (by omega)
      exact ⟨deltas, hlen, by rw [append, hnone ha, List.nil_append, hframes]⟩

end CodeTables

/-! ## Readings -/

/-- What a code attribute says: its instructions and its tables, with offsets as they stand. -/
structure CodeReading extends CodeTables where
  code : List (Nat × Instruction)
  /-- The length of the code. -/
  size : Nat
  handlers : List ExceptionEntry := []
  deriving DecidableEq, Repr

namespace CodeReading

/-- Reads a code attribute. -/
def ofCode (pool : ConstantPool) (entryLocals : List VerificationType) (c : CodeAttribute) :
    Except ClassFormatError CodeReading := do
  let code ← Instruction.decode c.code
  let tables ← CodeTables.ofAttributes pool entryLocals c.attributes
  return { tables with code, size := c.code.length, handlers := c.handlers }

/-- Reads emitted code, whose frames are states already. -/
def ofEmitted (e : EmittedCode) : Except ClassFormatError CodeReading := do
  return { code := ← Instruction.decode e.code, size := e.code.length, frames := e.frames }

/-- The offsets of the instructions, and the end of the code. -/
def boundaries (d : CodeReading) : List Nat :=
  ClassSynth.boundaries d.code d.size

/-- The position of an offset among the boundaries. -/
def position (d : CodeReading) (pc : Nat) : Nat :=
  d.boundaries.idxOf pc

/-- The offset at a position. -/
def offset (d : CodeReading) (position : Nat) : Nat :=
  d.boundaries.getD position 0

/-- Every offset in the code and in the tables is a boundary. -/
structure Closed (d : CodeReading) : Prop where
  labels : ∀ p ∈ d.code, ∀ l ∈ p.2.labels, l ∈ d.boundaries
  handlers : ∀ e ∈ d.handlers,
    e.start.toNat ∈ d.boundaries ∧ e.stop.toNat ∈ d.boundaries ∧ e.handler.toNat ∈ d.boundaries
  tables : d.toCodeTables.Within d.boundaries
  fits : ∀ p ∈ d.code, p.2.Fits
  increasing : d.boundaries.Pairwise (· < ·)
  start : d.boundaries.head? = some 0

/-- The reading by position. -/
def indexed (d : CodeReading) (maxStack maxLocals : UInt16) : IndexedBody where
  code := d.code.map fun p => p.2.mapLabels d.position
  maxStack
  maxLocals
  handlers := d.handlers.map (·.indexed d.boundaries)
  frames := d.frames.map (·.mapOffsets d.position)
  lines := d.lines.map (·.indexed d.boundaries)
  localVariables := d.localVariables.map (·.indexed d.boundaries)
  localVariableTypes := d.localVariableTypes.map (·.indexed d.boundaries)
  other := d.other

/-- The instructions and frames of the reading, by position. -/
def fragment (d : CodeReading) (maxStack maxLocals : UInt16) : Fragment where
  code := d.code.map fun p => p.2.mapLabels d.position
  frames := d.frames.map (·.mapOffsets d.position)
  maxStack
  maxLocals

@[simp] theorem length_fragment (d : CodeReading) (maxStack maxLocals : UInt16) :
    (d.fragment maxStack maxLocals).code.length = d.code.length :=
  List.length_map _

end CodeReading

/-! ## Indexing -/

namespace IndexedBody

variable {pool : ConstantPool} {entryLocals : List VerificationType} {bounds : List Nat}

theorem indexLabels_eq_ok {decoded : List (Nat × Instruction)} {code : List Instruction}
    (h : indexLabels bounds decoded = .ok code) :
    code = decoded.map (fun p => p.2.mapLabels bounds.idxOf) ∧
      ∀ p ∈ decoded, ∀ l ∈ p.2.labels, l ∈ bounds := by
  have hstep : ∀ l m, positionOf bounds l = .ok m → m = bounds.idxOf l :=
    fun l m hlm => (positionOf_eq_ok hlm).1
  obtain ⟨rfl, hall⟩ := Checked.mapM_eq_map
    (g := fun p : Nat × Instruction => p.2.mapLabels bounds.idxOf)
    (fun p _ i hi => (Instruction.mapLabelsM_eq_ok hstep hi).1) h
  refine ⟨rfl, fun p hp l hl => ?_⟩
  exact (positionOf_eq_ok ((Instruction.mapLabelsM_eq_ok hstep (hall p hp)).2 l hl)).2

theorem framesOf_eq_ok {states frames : List FrameState}
    (h : states.mapM (·.mapOffsetsM (positionOf bounds)) = .ok frames) :
    frames = states.map (·.mapOffsets bounds.idxOf) ∧
      ∀ s ∈ states, ∀ a ∈ s.offsets, a ∈ bounds := by
  have hstep : ∀ a b, positionOf bounds a = .ok b → b = bounds.idxOf a :=
    fun a b hab => (positionOf_eq_ok hab).1
  obtain ⟨rfl, hall⟩ := Checked.mapM_eq_map
    (g := fun s : FrameState => s.mapOffsets bounds.idxOf)
    (fun s _ t ht => (FrameState.mapOffsetsM_eq_ok hstep ht).1) h
  refine ⟨rfl, fun s hs a ha => ?_⟩
  exact (positionOf_eq_ok ((FrameState.mapOffsetsM_eq_ok hstep (hall s hs)).2 a ha)).2

theorem handlersOf_eq_ok {entries : List ExceptionEntry} {handlers : List IndexedHandler}
    (h : entries.mapM (handlerOf bounds) = .ok handlers) :
    handlers = entries.map (·.indexed bounds) ∧
      ∀ e ∈ entries, e.start.toNat ∈ bounds ∧ e.stop.toNat ∈ bounds ∧ e.handler.toNat ∈ bounds := by
  have hhandler : ∀ {e : ExceptionEntry} {i : IndexedHandler}, handlerOf bounds e = .ok i →
      i = e.indexed bounds ∧
        e.start.toNat ∈ bounds ∧ e.stop.toNat ∈ bounds ∧ e.handler.toNat ∈ bounds := by
    intro e i hi
    simp only [handlerOf, Checked.bind_eq_ok, Checked.pure_eq_ok] at hi
    obtain ⟨start, hstart, stop, hstop, handler, hhandler, rfl⟩ := hi
    obtain ⟨rfl, hstartMem⟩ := positionOf_eq_ok hstart
    obtain ⟨rfl, hstopMem⟩ := positionOf_eq_ok hstop
    obtain ⟨rfl, hhandlerMem⟩ := positionOf_eq_ok hhandler
    exact ⟨rfl, hstartMem, hstopMem, hhandlerMem⟩
  obtain ⟨rfl, hall⟩ := Checked.mapM_eq_map (fun e _ i hi => (hhandler hi).1) h
  exact ⟨rfl, fun e he => (hhandler (hall e he)).2⟩

theorem linesOf_eq_ok {entries : List LineEntry} {lines : List IndexedLine}
    (h : (entries.mapM fun l => do
      return ({ start := ← positionOf bounds l.start.toNat, line := l.line } : IndexedLine))
        = .ok lines) :
    lines = entries.map (·.indexed bounds) ∧ ∀ l ∈ entries, l.start.toNat ∈ bounds := by
  have hline : ∀ {l : LineEntry} {i : IndexedLine},
      (do return ({ start := ← positionOf bounds l.start.toNat, line := l.line } : IndexedLine))
        = Except.ok i → i = l.indexed bounds ∧ l.start.toNat ∈ bounds := by
    intro l i hi
    simp only [Checked.bind_eq_ok, Checked.pure_eq_ok] at hi
    obtain ⟨start, hstart, rfl⟩ := hi
    obtain ⟨rfl, hstartMem⟩ := positionOf_eq_ok hstart
    exact ⟨rfl, hstartMem⟩
  obtain ⟨rfl, hall⟩ := Checked.mapM_eq_map (fun l _ i hi => (hline hi).1) h
  exact ⟨rfl, fun l hl => (hline (hall l hl)).2⟩

theorem rangesOf_eq_ok {entries : List VariableEntry} {ranges : List IndexedRange}
    (h : entries.mapM (rangeOf bounds) = .ok ranges) :
    ranges = entries.map (·.indexed bounds) ∧
      ∀ v ∈ entries, v.start.toNat ∈ bounds ∧ v.stop ∈ bounds := by
  have hrange : ∀ {v : VariableEntry} {r : IndexedRange}, rangeOf bounds v = .ok r →
      r = v.indexed bounds ∧ v.start.toNat ∈ bounds ∧ v.stop ∈ bounds := by
    intro v r hr
    simp only [rangeOf, Checked.bind_eq_ok, Checked.pure_eq_ok] at hr
    obtain ⟨start, hstart, stop, hstop, rfl⟩ := hr
    obtain ⟨rfl, hstartMem⟩ := positionOf_eq_ok hstart
    obtain ⟨rfl, hstopMem⟩ := positionOf_eq_ok hstop
    exact ⟨rfl, hstartMem, hstopMem⟩
  obtain ⟨rfl, hall⟩ := Checked.mapM_eq_map (fun v _ r hr => (hrange hr).1) h
  exact ⟨rfl, fun v hv => (hrange (hall v hv)).2⟩

/-- The body with the rows of more tables. -/
def addTables (bounds : List Nat) (body : IndexedBody) (t : CodeTables) : IndexedBody :=
  { body with
    frames := body.frames ++ t.frames.map (·.mapOffsets bounds.idxOf)
    lines := body.lines ++ t.lines.map (·.indexed bounds)
    localVariables := body.localVariables ++ t.localVariables.map (·.indexed bounds)
    localVariableTypes := body.localVariableTypes ++ t.localVariableTypes.map (·.indexed bounds)
    other := body.other ++ t.other }

@[simp] theorem addTables_empty (bounds : List Nat) (body : IndexedBody) :
    body.addTables bounds {} = body := by
  simp [addTables]

theorem addTables_append (bounds : List Nat) (body : IndexedBody) (t u : CodeTables) :
    body.addTables bounds (t.append u) = (body.addTables bounds t).addTables bounds u := by
  simp [addTables, CodeTables.append]

/-- The rows of an attribute go to the end of the tables, but those of a stack map table replace the
frames. -/
theorem addAttribute_eq_ok {body body' : IndexedBody} {a : Attribute}
    (h : addAttribute pool entryLocals bounds body a = .ok body')
    (hfresh : a.isStackMapTable pool → body.frames = []) :
    ∃ t, CodeTables.ofAttribute pool entryLocals a = .ok t ∧ t.Within bounds ∧
      body' = body.addTables bounds t := by
  obtain ⟨name, hname, h⟩ := Checked.bind_eq_ok.mp h
  simp only [Attribute.isStackMapTable, hname] at hfresh ⊢
  have hread : CodeTables.ofAttribute pool entryLocals a
      = (pool.utf8 a.name >>= fun name => _) := rfl
  rw [hname] at hread
  split at h
  case h_1 hkind =>
    obtain ⟨deltas, hdeltas, h⟩ := Checked.bind_eq_ok.mp h
    obtain ⟨frames, hframes, h⟩ := Checked.bind_eq_ok.mp h
    obtain rfl := Checked.pure_eq_ok.mp h
    obtain ⟨rfl, hmem⟩ := framesOf_eq_ok hframes
    refine ⟨{ frames := FrameState.ofDeltas deltas entryLocals }, ?_,
      { CodeTables.Within.empty with frames := hmem }, ?_⟩
    · simp [hread, bind, Except.bind, hkind, hdeltas]
    · simp [addTables, hfresh (by simp [hkind])]
  case h_2 hkind =>
    obtain ⟨entries, hentries, h⟩ := Checked.bind_eq_ok.mp h
    obtain ⟨lines, hlines, h⟩ := Checked.bind_eq_ok.mp h
    obtain rfl := Checked.pure_eq_ok.mp h
    obtain ⟨rfl, hmem⟩ := linesOf_eq_ok hlines
    refine ⟨{ lines := entries }, ?_, { CodeTables.Within.empty with lines := hmem },
      by simp [addTables]⟩
    simp [hread, bind, Except.bind, hkind, hentries]
  case h_3 hkind =>
    obtain ⟨entries, hentries, h⟩ := Checked.bind_eq_ok.mp h
    obtain ⟨ranges, hranges, h⟩ := Checked.bind_eq_ok.mp h
    obtain rfl := Checked.pure_eq_ok.mp h
    obtain ⟨rfl, hmem⟩ := rangesOf_eq_ok hranges
    refine ⟨{ localVariables := entries }, ?_,
      { CodeTables.Within.empty with localVariables := hmem }, by simp [addTables]⟩
    simp [hread, bind, Except.bind, hkind, hentries]
  case h_4 hkind =>
    obtain ⟨entries, hentries, h⟩ := Checked.bind_eq_ok.mp h
    obtain ⟨ranges, hranges, h⟩ := Checked.bind_eq_ok.mp h
    obtain rfl := Checked.pure_eq_ok.mp h
    obtain ⟨rfl, hmem⟩ := rangesOf_eq_ok hranges
    refine ⟨{ localVariableTypes := entries }, ?_,
      { CodeTables.Within.empty with localVariableTypes := hmem }, by simp [addTables]⟩
    simp [hread, bind, Except.bind, hkind, hentries]
  case h_5 hstack hline hvariable htype =>
    obtain rfl := Checked.pure_eq_ok.mp h
    refine ⟨{ other := [a] }, ?_, { CodeTables.Within.empty with }, by simp [addTables]⟩
    rw [hread]
    simp only [bind, Except.bind]
    rfl

/-- The rows of several attributes, of which at most one is a stack map table. -/
theorem addAttributes_eq_ok {as : List Attribute} {body body' : IndexedBody}
    (h : as.foldlM (addAttribute pool entryLocals bounds) body = .ok body')
    (hone : as.countP (Attribute.isStackMapTable pool) ≤ 1)
    (hfresh : 0 < as.countP (Attribute.isStackMapTable pool) → body.frames = []) :
    ∃ t, CodeTables.ofAttributes pool entryLocals as = .ok t ∧ t.Within bounds ∧
      body' = body.addTables bounds t := by
  induction as generalizing body with
  | nil =>
    obtain rfl := Checked.pure_eq_ok.mp h
    exact ⟨{}, rfl, CodeTables.Within.empty, (addTables_empty bounds body).symm⟩
  | cons a as ih =>
    obtain ⟨next, hnext, h⟩ := Checked.bind_eq_ok.mp h
    rw [List.countP_cons] at hone hfresh
    obtain ⟨t, ht, htWithin, rfl⟩ := addAttribute_eq_ok hnext fun ha => by
      apply hfresh
      simp [ha]
    obtain ⟨u, hu, huWithin, rfl⟩ := ih h (by omega) fun hpos => by
      have ha : ¬ a.isStackMapTable pool := fun ha => by
        rw [if_pos ha] at hone
        omega
      simp [addTables, (CodeTables.frames_of_ofAttribute ht).1 ha, hfresh (by omega)]
    refine ⟨t.append u, ?_, htWithin.append huWithin, (addTables_append bounds body t u).symm⟩
    exact CodeTables.ofAttributes_cons.mpr ⟨t, ht, u, hu, rfl⟩

end IndexedBody

/-! ## Main results -/

/-- A code attribute with at most one stack map table is indexed by its reading. -/
theorem reading_of_ofCode {pool : ConstantPool} {entryLocals : List VerificationType}
    {c : CodeAttribute} {body : IndexedBody}
    (h : IndexedBody.ofCode pool entryLocals c = .ok body)
    (hone : c.attributes.countP (Attribute.isStackMapTable pool) ≤ 1) :
    ∃ d, CodeReading.ofCode pool entryLocals c = .ok d ∧ d.Closed ∧
      body = d.indexed c.maxStack c.maxLocals := by
  simp only [IndexedBody.ofCode, Checked.bind_eq_ok] at h
  obtain ⟨decoded, hdecoded, code, hcode, handlers, hhandlers, h⟩ := h
  obtain ⟨rfl, hlabels⟩ := IndexedBody.indexLabels_eq_ok hcode
  obtain ⟨rfl, hhandlersMem⟩ := IndexedBody.handlersOf_eq_ok hhandlers
  obtain ⟨t, ht, htWithin, rfl⟩ := IndexedBody.addAttributes_eq_ok h hone fun _ => rfl
  refine ⟨{ t with code := decoded, size := c.code.length, handlers := c.handlers }, ?_, ?_, ?_⟩
  · simp [CodeReading.ofCode, Checked.bind_eq_ok, hdecoded, ht]
  · exact {
      labels := hlabels
      handlers := hhandlersMem
      tables := htWithin
      fits := Instruction.fits_of_decode hdecoded
      increasing := Instruction.boundaries_pairwise hdecoded
      start := Instruction.head?_boundaries hdecoded }
  · rfl

/-- The frames of a code attribute with at most one stack map table. -/
theorem frames_of_ofCode {pool : ConstantPool} {entryLocals : List VerificationType}
    {c : CodeAttribute} {d : CodeReading} (h : CodeReading.ofCode pool entryLocals c = .ok d)
    (hone : c.attributes.countP (Attribute.isStackMapTable pool) ≤ 1) :
    d.frames.length < 65536 ∧ d.frames.Pairwise (·.pc < ·.pc) := by
  simp only [CodeReading.ofCode, Checked.bind_eq_ok, Checked.pure_eq_ok] at h
  obtain ⟨code, -, t, ht, rfl⟩ := h
  obtain ⟨deltas, hlen, hframes⟩ := CodeTables.frames_of_ofAttributes ht hone
  rw [hframes]
  exact ⟨by rwa [FrameState.length_ofDeltas], FrameState.ofDeltas_pairwise deltas entryLocals⟩

theorem CodeReading.ofEmitted_eq_ok {e : EmittedCode} {d : CodeReading} :
    CodeReading.ofEmitted e = .ok d ↔ ∃ code, Instruction.decode e.code = .ok code ∧
      { code, size := e.code.length, frames := e.frames } = d := by
  simp only [CodeReading.ofEmitted, Checked.bind_eq_ok, Checked.pure_eq_ok]

/-- Emitted code is a fragment by its reading. -/
theorem reading_of_ofEmitted {e : EmittedCode} {fragment : Fragment}
    (h : Fragment.ofEmitted e = .ok fragment) :
    ∃ d, CodeReading.ofEmitted e = .ok d ∧ d.Closed ∧
      fragment = d.fragment e.maxStack e.maxLocals := by
  simp only [Fragment.ofEmitted, Checked.bind_eq_ok, Checked.pure_eq_ok] at h
  obtain ⟨decoded, hdecoded, code, hcode, frames, hframes, rfl⟩ := h
  obtain ⟨rfl, hlabels⟩ := IndexedBody.indexLabels_eq_ok hcode
  obtain ⟨rfl, hframesMem⟩ := IndexedBody.framesOf_eq_ok hframes
  refine ⟨{ code := decoded, size := e.code.length, frames := e.frames }, ?_, ?_, rfl⟩
  · exact CodeReading.ofEmitted_eq_ok.mpr ⟨decoded, hdecoded, rfl⟩
  · exact {
      labels := hlabels
      handlers := by simp
      tables := { CodeTables.Within.empty with frames := hframesMem }
      fits := Instruction.fits_of_decode hdecoded
      increasing := Instruction.boundaries_pairwise hdecoded
      start := Instruction.head?_boundaries hdecoded }

end ClassSynth
