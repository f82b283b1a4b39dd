import ClassSynth.Proofs.Bytes.Reading
import ClassSynth.Proofs.Patch.Positions

/-!
# Writing code that was read

Code that is read and written again stays as it was, but for the bytes that say nothing: the padding
of switches and the reserved bytes of two calls become zero. The bytes of an operand are determined
by what was read, by these fillers and by the number in front of the cases of a switch
(`sourceBytes`); the writer chooses zeros, and the number of the cases that are there
(`operandBytes_eq`).
-/

namespace ClassSynth.Instruction

/-! ## Bytes that say nothing -/

/-- Where the filler of an operand starts, counted from behind the opcode. -/
def fillerStart : Operand → Nat
  | .invokeInterface .. => 3
  | .invokeDynamic .. => 2
  | _ => 0

/-- The number of bytes of an operand at `pc` that say nothing. -/
def fillerSize (pc : Nat) : Operand → Nat
  | .tableSwitch .. | .lookupSwitch .. => padding pc
  | .invokeInterface .. => 1
  | .invokeDynamic .. => 2
  | _ => 0

/-- The offsets of the bytes of an instruction that say nothing: the padding of a switch, and the
reserved bytes of calls. -/
def fillers (p : Nat × Instruction) : List Nat :=
  List.range' (p.1 + 1 + fillerStart p.2.operand) (fillerSize p.1 p.2.operand)

/-- The signed number in four bytes of the code. -/
def wordAt? (code : Bytes) (k : Nat) : Option Int32 :=
  (Reader.i32.run (code.drop k)).toOption

/-- The number in front of the cases of a switch is a number of cases: the highest key is at least
the lowest one less one, and a count of cases is not negative. -/
def SwitchInOrder (code : Bytes) (p : Nat × Instruction) : Prop :=
  match p.2.operand with
  | .tableSwitch _ low _ =>
    ∀ high, wordAt? code (p.1 + 1 + padding p.1 + 8) = some high → low.toInt - 1 ≤ high.toInt
  | .lookupSwitch _ _ =>
    ∀ count, wordAt? code (p.1 + 1 + padding p.1 + 4) = some count → 0 ≤ count.toInt
  | _ => True

/-! ## What operands are read from -/

/-- The way from `pc` to a target in four bytes. -/
def jumpBytes (pc : Nat) (target : Label) : Bytes :=
  Bytes.ofI32 (Int32.ofInt ((target : Int) - pc))

/-- The bytes of an operand whose labels are offsets; `bound` stands in front of the cases of a
switch. -/
def sourceBytes (pc : Nat) (filler : Bytes) (bound : Int32) : Operand → Bytes
  | .empty => []
  | .byte value => [value]
  | .short value => Bytes.ofU16 value
  | .slot index wide => if wide then Bytes.ofU16 index else [index.toUInt8]
  | .increment index delta wide =>
    if wide then Bytes.ofU16 index ++ Bytes.ofI16 delta
    else [index.toUInt8, delta.toInt8.toUInt8]
  | .branch target => Bytes.ofI16 (Int16.ofInt ((target : Int) - pc))
  | .wideBranch target => jumpBytes pc target
  | .tableSwitch fallback low targets =>
    filler ++ (jumpBytes pc fallback ++ (Bytes.ofI32 low ++ (Bytes.ofI32 bound ++
      targets.flatMap (jumpBytes pc))))
  | .lookupSwitch fallback cases =>
    filler ++ (jumpBytes pc fallback ++ (Bytes.ofI32 bound ++
      cases.flatMap fun c => Bytes.ofI32 c.1 ++ jumpBytes pc c.2))
  | .invokeInterface index count => Bytes.ofU16 index ++ (count :: filler)
  | .invokeDynamic index => Bytes.ofU16 index ++ filler
  | .newMultiArray index dims => Bytes.ofU16 index ++ [dims]

/-- What is known of an operand that was read: the size of its filler, the number of its cases, and
that a short jump is near. -/
def Accounts (pc : Nat) (filler : Bytes) (bound : Int32) (o : Operand) : Prop :=
  filler.length = fillerSize pc o ∧
    match o with
    | .branch target => -32768 ≤ (target : Int) - pc ∧ (target : Int) - pc ≤ 32767
    | .tableSwitch _ low targets => targets.length = (bound.toInt - low.toInt + 1).toNat
    | .lookupSwitch _ cases => cases.length = bound.toInt.toNat
    | _ => True

/-- The operand was read from the bytes, not behind `wide`. -/
structure IsSource (pc : Nat) (o : Operand) (bytes : Bytes) : Prop where
  short : ∀ opcode, isWideForm ⟨opcode, o⟩ = false
  source : ∃ filler bound, bytes = sourceBytes pc filler bound o ∧ Accounts pc filler bound o

theorem IsSource.of_eq {pc : Nat} {o : Operand} {bytes : Bytes} (h : bytes = sourceBytes pc [] 0 o)
    (haccounts : Accounts pc [] 0 o) (hshort : ∀ opcode, isWideForm ⟨opcode, o⟩ = false) :
    IsSource pc o bytes :=
  ⟨hshort, [], 0, h, haccounts⟩

theorem takes_i16 : Reader.i16.Takes fun n bytes => bytes = Bytes.ofI16 n :=
  Reader.Takes.u16.map fun n bytes h => by rw [h, Bytes.ofI16, UInt16.toUInt16_toInt16]

theorem takes_targetOf (pc : Nat) (offset : Int) :
    (targetOf pc offset).Takes fun target bytes => bytes = [] ∧ (target : Int) - pc = offset := by
  unfold targetOf
  simp only
  split_ifs with hrange
  · exact .fail
  · refine .pure ⟨rfl, ?_⟩
    omega

theorem takes_readTarget (pc : Nat) :
    (readTarget pc).Takes fun target bytes => bytes = jumpBytes pc target := by
  refine Reader.Takes.i32.bind fun n p hp => (takes_targetOf pc n.toInt).mono ?_
  rintro target bytes ⟨rfl, hoffset⟩
  rw [hp, List.append_nil, jumpBytes, hoffset, Int32.ofInt_toInt]

theorem takes_readCase (pc : Nat) :
    (readCase pc).Takes fun c bytes => bytes = Bytes.ofI32 c.1 ++ jumpBytes pc c.2 := by
  refine Reader.Takes.i32.bind fun n p hp => (takes_readTarget pc).map ?_
  intro target bytes hbytes
  rw [hp, hbytes]

theorem takes_tableSwitch (pc : Nat) : (readOperand pc .tableSwitch).Takes (IsSource pc) := by
  refine (Reader.Takes.take (padding pc)).bind fun filler p hp => ?_
  refine (takes_readTarget pc).bind fun fallback q hq => ?_
  refine Reader.Takes.i32.bind fun low r hr => Reader.Takes.i32.bind fun high s hs => ?_
  refine ((takes_readTarget pc).many _).map fun targets bytes hbytes => ?_
  obtain ⟨rfl, hcount⟩ := hbytes
  obtain ⟨rfl, hsize⟩ := hp
  refine ⟨fun _ => rfl, p, high, ?_, hsize, hcount⟩
  rw [hq, hr, hs, sourceBytes]

theorem takes_lookupSwitch (pc : Nat) : (readOperand pc .lookupSwitch).Takes (IsSource pc) := by
  refine (Reader.Takes.take (padding pc)).bind fun filler p hp => ?_
  refine (takes_readTarget pc).bind fun fallback q hq => ?_
  refine Reader.Takes.i32.bind fun count s hs => ?_
  refine ((takes_readCase pc).many _).map fun cases bytes hbytes => ?_
  obtain ⟨rfl, hcount⟩ := hbytes
  obtain ⟨rfl, hsize⟩ := hp
  refine ⟨fun _ => rfl, p, count, ?_, hsize, hcount⟩
  rw [hq, hs, sourceBytes]

/-- An operand is read from its source. -/
theorem takes_readOperand (pc : Nat) (s : OperandShape) :
    (readOperand pc s).Takes (IsSource pc) := by
  cases s with
  | empty => exact .pure (.of_eq rfl ⟨rfl, trivial⟩ fun _ => rfl)
  | byte => exact Reader.Takes.u8.map fun value bytes h => .of_eq h ⟨rfl, trivial⟩ fun _ => rfl
  | short => exact Reader.Takes.u16.map fun value bytes h => .of_eq h ⟨rfl, trivial⟩ fun _ => rfl
  | slot =>
    refine Reader.Takes.u8.map fun index bytes h => .of_eq ?_ ⟨rfl, trivial⟩ fun _ => rfl
    rw [h, sourceBytes, if_neg Bool.false_ne_true, UInt8.toUInt8_toUInt16]
  | increment =>
    refine Reader.Takes.u8.bind fun index p hp => Reader.Takes.u8.map fun delta bytes h =>
      .of_eq ?_ ⟨rfl, trivial⟩ fun _ => rfl
    rw [hp, h, sourceBytes, if_neg Bool.false_ne_true, UInt8.toUInt8_toUInt16,
      Int8.toInt8_toInt16, UInt8.toUInt8_toInt8]
    rfl
  | branch =>
    refine takes_i16.bind fun n p hp => (takes_targetOf pc n.toInt).map fun target bytes h => ?_
    obtain ⟨rfl, hoffset⟩ := h
    have hlow := n.le_toInt
    have hhigh := n.toInt_lt
    refine .of_eq ?_ ⟨rfl, by omega, by omega⟩ fun _ => rfl
    rw [hp, List.append_nil, sourceBytes, hoffset, Int16.ofInt_toInt]
  | wideBranch =>
    exact (takes_readTarget pc).map fun target bytes h => .of_eq h ⟨rfl, trivial⟩ fun _ => rfl
  | tableSwitch => exact takes_tableSwitch pc
  | lookupSwitch => exact takes_lookupSwitch pc
  | invokeInterface =>
    refine Reader.Takes.u16.bind fun index p hp => Reader.Takes.u8.bind fun count q hq =>
      Reader.Takes.u8.map fun reserved bytes h => ⟨fun _ => rfl, [reserved], 0, ?_, rfl, trivial⟩
    rw [hp, hq, h]
    rfl
  | invokeDynamic =>
    refine Reader.Takes.u16.bind fun index p hp => Reader.Takes.u16.map fun reserved bytes h =>
      ⟨fun _ => rfl, Bytes.ofU16 reserved, 0, ?_, rfl, trivial⟩
    rw [hp, h]
    rfl
  | newMultiArray =>
    refine Reader.Takes.u16.bind fun index p hp => Reader.Takes.u8.map fun dims bytes h =>
      .of_eq ?_ ⟨rfl, trivial⟩ fun _ => rfl
    rw [hp, h]
    rfl

/-! ## What operands are written as -/

/-- The number that is written in front of the cases of a switch. -/
def writtenBound : Operand → Int32
  | .tableSwitch _ low targets => low + Int32.ofNat targets.length - 1
  | .lookupSwitch _ cases => Int32.ofNat cases.length
  | _ => 0

/-- The number in front of the cases of a switch is a number of cases. -/
def InOrder (bound : Int32) : Operand → Prop
  | .tableSwitch _ low _ => low.toInt - 1 ≤ bound.toInt
  | .lookupSwitch _ _ => 0 ≤ bound.toInt
  | _ => True

/-- The number in front of the cases is found again from the cases. -/
theorem sourceBytes_writtenBound {pc : Nat} {filler : Bytes} {bound : Int32} {o : Operand}
    (h : Accounts pc filler bound o) (horder : InOrder bound o) (filler' : Bytes) :
    sourceBytes pc filler' (writtenBound o) o = sourceBytes pc filler' bound o := by
  obtain ⟨_, hcount⟩ := h
  have hlow := bound.le_toInt
  have hhigh := bound.toInt_lt
  cases o with
  | tableSwitch fallback low targets =>
    have hcount : targets.length = (bound.toInt - low.toInt + 1).toNat := hcount
    have horder : low.toInt - 1 ≤ bound.toInt := horder
    have hbound : writtenBound (.tableSwitch fallback low targets) = bound := by
      apply Int32.toInt.inj
      rw [writtenBound, high_toInt (by omega) (by omega)]
      omega
    rw [hbound]
  | lookupSwitch fallback cases =>
    have hcount : cases.length = bound.toInt.toNat := hcount
    have horder : 0 ≤ bound.toInt := horder
    have hbound : writtenBound (.lookupSwitch fallback cases) = bound := by
      apply Int32.toInt.inj
      rw [writtenBound, Int32.toInt_ofNat_of_lt (by omega)]
      omega
    rw [hbound]
  | _ => rfl

section

variable {pcs : Array Nat} {f : Label → Label} {pc : Nat}

theorem offsetOf_of_get (pc : Nat) {target : Label} (h : pcs[f target]? = some target) :
    offsetOf pcs pc (f target) = .ok ((target : Int) - pc) := by
  rw [offsetOf, h]

theorem wideOffset_of_get (pc : Nat) {target : Label} (h : pcs[f target]? = some target) :
    wideOffset pcs pc (f target) = .ok (jumpBytes pc target) := by
  rw [wideOffset, offsetOf_of_get pc h]
  rfl

/-- An operand is written as its source, with zeros for filler and the number of its cases, where
`f` leads from the labels to positions. -/
theorem operandBytes_eq {filler : Bytes} {bound : Int32} {o : Operand}
    (h : Accounts pc filler bound o) (hlabels : ∀ l ∈ o.labels, pcs[f l]? = some l) :
    operandBytes pcs pc (o.mapLabels f)
      = .ok (sourceBytes pc (List.replicate (fillerSize pc o) 0) (writtenBound o) o) := by
  cases o with
  | branch target =>
    obtain ⟨_, hlow, hhigh⟩ := h
    have hoffset := offsetOf_of_get pc (hlabels target List.mem_cons_self)
    rw [Operand.mapLabels, operandBytes, hoffset, Checked.bind_eq_ok]
    exact ⟨_, rfl, if_neg (by omega)⟩
  | wideBranch target => exact wideOffset_of_get pc (hlabels target List.mem_cons_self)
  | tableSwitch fallback low targets =>
    have hfallback := wideOffset_of_get pc (hlabels fallback List.mem_cons_self)
    have htargets :
        (targets.map f).mapM (wideOffset pcs pc) = .ok (targets.map (jumpBytes pc)) := by
      rw [Checked.mapM_eq_ok, List.forall₂_map_left_iff, List.forall₂_map_right_iff,
        List.forall₂_same]
      exact fun l hl => wideOffset_of_get pc (hlabels l (List.mem_cons_of_mem _ hl))
    simp only [Operand.mapLabels, operandBytes, hfallback, htargets, Checked.bind_eq_ok,
      Checked.pure_eq_ok]
    refine ⟨_, rfl, _, rfl, ?_⟩
    simp [sourceBytes, writtenBound, fillerSize, List.flatMap_def]
  | lookupSwitch fallback cases =>
    have hfallback := wideOffset_of_get pc (hlabels fallback List.mem_cons_self)
    have hcases : (cases.map fun c => (c.1, f c.2)).mapM (caseBytes pcs pc)
        = .ok (cases.map fun c => Bytes.ofI32 c.1 ++ jumpBytes pc c.2) := by
      rw [Checked.mapM_eq_ok, List.forall₂_map_left_iff, List.forall₂_map_right_iff,
        List.forall₂_same]
      intro c hc
      have htarget := wideOffset_of_get pc
        (hlabels c.2 (List.mem_cons_of_mem _ (List.mem_map_of_mem (f := Prod.snd) hc)))
      rw [caseBytes, htarget]
      rfl
    simp only [Operand.mapLabels, operandBytes, hfallback, Checked.bind_eq_ok, Checked.pure_eq_ok]
    refine ⟨_, rfl, _, hcases, ?_⟩
    simp [sourceBytes, writtenBound, fillerSize, List.flatMap_def]
  | _ => rfl

end

/-! ## Instructions -/

/-- The bytes of an instruction around those of its operand. -/
def withOpcode (i : Instruction) (operand : Bytes) : Bytes :=
  if i.isWideForm then Opcode.wide :: i.opcode :: operand else i.opcode :: operand

/-- The instruction was read from the bytes. -/
def Source (p : Nat × Instruction) (bytes : Bytes) : Prop :=
  ∃ filler bound, bytes = withOpcode p.2 (sourceBytes p.1 filler bound p.2.operand) ∧
    Accounts p.1 filler bound p.2.operand

theorem takes_readWide (pc : Nat) :
    (readWide pc).Takes fun i bytes => Source (pc, i) (Opcode.wide :: bytes) := by
  refine Reader.Takes.u8.bind fun opcode p hp => Reader.Takes.u16.bind fun index q hq => ?_
  split_ifs
  · refine takes_i16.map fun delta bytes h => ⟨[], 0, ?_, rfl, trivial⟩
    rw [hp, hq, h]
    rfl
  · refine .pure ⟨[], 0, ?_, rfl, trivial⟩
    rw [hp, hq, List.append_nil]
    rfl
  · exact .fail

/-- An instruction is read from its source, at its offset. -/
theorem source_of_read {c c' : Cursor} {p : Nat × Instruction} (h : read c = .ok (p, c')) :
    p.1 = c.offset ∧ ∃ bytes, Source p bytes ∧ c.rest = bytes ++ c'.rest ∧
      c'.offset = c.offset + bytes.length := by
  obtain ⟨pc, c₁, hpc, h⟩ := Reader.bind_eq_ok.mp h
  obtain ⟨rfl, rfl⟩ := Prod.mk.inj (Except.ok.inj hpc)
  obtain ⟨opcode, c₂, hopcode, h⟩ := Reader.bind_eq_ok.mp h
  obtain ⟨first, rfl, hc₂, hoffset₂⟩ := Reader.Takes.u8 _ _ _ hopcode
  -- whatever follows the opcode, its bytes come behind the opcode
  have hrest : ∀ {r : Reader Instruction},
      (r.Takes fun i bytes => Source (c.offset, i) (opcode :: bytes)) →
      (r >>= fun i => pure (c.offset, i)) c₂ = .ok (p, c') →
      p.1 = c.offset ∧ ∃ bytes, Source p bytes ∧ c.rest = bytes ++ c'.rest ∧
        c'.offset = c.offset + bytes.length := by
    intro r hr hrun
    obtain ⟨i, c₃, hi, hp⟩ := Reader.bind_eq_ok.mp hrun
    obtain ⟨rfl, rfl⟩ := Prod.mk.inj (Reader.pure_eq_ok.mp hp)
    obtain ⟨bytes, hsource, hbytes, hoffset⟩ := hr _ _ _ hi
    refine ⟨rfl, opcode :: bytes, hsource, by rw [hc₂, hbytes]; rfl, ?_⟩
    rw [hoffset, hoffset₂]
    simp only [List.length_cons, List.length_nil]
    omega
  by_cases hwide : (opcode == Opcode.wide) = true
  · rw [if_pos hwide] at h
    obtain rfl := eq_of_beq hwide
    exact hrest (takes_readWide c.offset) h
  · rw [if_neg hwide] at h
    cases hshape : Opcode.shape? opcode with
    | none =>
      rw [hshape] at h
      cases h
    | some shape =>
      rw [hshape] at h
      have htakes : (readOperand c.offset shape >>= fun o => pure (Instruction.mk opcode o)).Takes
          fun i bytes => Source (c.offset, i) (opcode :: bytes) := by
        refine (takes_readOperand c.offset shape).map fun o bytes ho => ?_
        obtain ⟨filler, bound, rfl, haccounts⟩ := ho.source
        refine ⟨filler, bound, ?_, haccounts⟩
        rw [withOpcode, ho.short, if_neg Bool.false_ne_true]
      refine hrest htakes ?_
      simpa only [bind_assoc, pure_bind] using h

theorem length_jumps (pc : Nat) (targets : List Label) :
    (targets.flatMap (jumpBytes pc)).length = 4 * targets.length := by
  rw [List.length_flatMap]
  simp [jumpBytes, Nat.mul_comm]

theorem length_cases_source (pc : Nat) (cases : List (Int32 × Label)) :
    (cases.flatMap fun c => Bytes.ofI32 c.1 ++ jumpBytes pc c.2).length = 8 * cases.length := by
  rw [List.length_flatMap]
  simp [jumpBytes, Nat.mul_comm]

/-- An instruction takes as many bytes as the layout gives it. -/
theorem Source.length {p : Nat × Instruction} {bytes : Bytes} (h : Source p bytes) :
    bytes.length = p.2.sizeAt p.1 := by
  obtain ⟨filler, bound, rfl, hfiller, _⟩ := h
  obtain ⟨pc, opcode, o⟩ := p
  have hfiller : filler.length = fillerSize pc o := hfiller
  cases o with
  | slot index wide => cases wide <;> rfl
  | increment index delta wide => cases wide <;> rfl
  | tableSwitch fallback low targets =>
    have hjumps := length_jumps pc targets
    simp [withOpcode, isWideForm, sourceBytes, sizeAt, jumpBytes, hfiller, fillerSize] at hjumps ⊢
    omega
  | lookupSwitch fallback cases =>
    have hcases := length_cases_source pc cases
    simp [withOpcode, isWideForm, sourceBytes, sizeAt, jumpBytes, hfiller, fillerSize] at hcases ⊢
    omega
  | invokeInterface index count =>
    simp [withOpcode, isWideForm, sourceBytes, sizeAt, hfiller, fillerSize]
  | invokeDynamic index =>
    simp [withOpcode, isWideForm, sourceBytes, sizeAt, hfiller, fillerSize]
  | _ => rfl

/-! ## Written and read bytes -/

/-- The written bytes are those that were read, but for zeros at skipped offsets. The first byte
stands at `pc`. -/
structure Agrees (skipped : List Nat) (pc : Nat) (written source : Bytes) : Prop where
  length : written.length = source.length
  differ : ∀ k, written[k]? ≠ source[k]? → pc + k ∈ skipped ∧ written[k]? = some 0

namespace Agrees

variable {skipped skipped' : List Nat} {pc : Nat} {written written' source source' : Bytes}

theorem refl (skipped : List Nat) (pc : Nat) (bytes : Bytes) : Agrees skipped pc bytes bytes :=
  ⟨rfl, fun _ h => absurd rfl h⟩

theorem mono (h : Agrees skipped pc written source) (hsub : skipped ⊆ skipped') :
    Agrees skipped' pc written source :=
  ⟨h.length, fun k hk => ⟨hsub (h.differ k hk).1, (h.differ k hk).2⟩⟩

theorem append (h : Agrees skipped pc written source)
    (h' : Agrees skipped (pc + source.length) written' source') :
    Agrees skipped pc (written ++ written') (source ++ source') where
  length := by rw [List.length_append, List.length_append, h.length, h'.length]
  differ := fun k hk => by
    rcases Nat.lt_or_ge k written.length with hlt | hge
    · rw [List.getElem?_append_left hlt] at hk ⊢
      rw [List.getElem?_append_left (h.length ▸ hlt)] at hk
      exact h.differ k hk
    · rw [List.getElem?_append_right hge] at hk ⊢
      rw [List.getElem?_append_right (h.length ▸ hge), ← h.length] at hk
      obtain ⟨hmem, hzero⟩ := h'.differ _ hk
      refine ⟨?_, hzero⟩
      rwa [← h.length, Nat.add_assoc, Nat.add_sub_of_le hge] at hmem

/-- Zeros in the place of filler. -/
theorem zeros {filler : Bytes} {n : Nat} (h : filler.length = n) :
    Agrees (List.range' pc n) pc (List.replicate n 0) filler where
  length := by rw [List.length_replicate, h]
  differ := fun k hk => by
    have hk' : k < n := by
      by_contra hge
      rw [List.getElem?_eq_none (by rw [List.length_replicate]; omega),
        List.getElem?_eq_none (by omega)] at hk
      exact hk rfl
    refine ⟨List.mem_range'_1.mpr ⟨Nat.le_add_right _ _, by omega⟩, ?_⟩
    rw [List.getElem?_replicate_of_lt hk']

/-- Where filler was zero already, nothing changes. -/
theorem eq_of_zero (h : Agrees skipped 0 written source)
    (hzero : ∀ k ∈ skipped, source[k]? = some 0) : written = source := by
  refine List.ext_getElem? fun k => ?_
  by_contra hk
  obtain ⟨hmem, hwritten⟩ := h.differ k hk
  rw [Nat.zero_add] at hmem
  exact hk (hwritten.trans (hzero k hmem).symm)

end Agrees

/-- An operand differs from its source in filler only. -/
theorem agrees_operand {pc : Nat} {filler : Bytes} (bound : Int32) (o : Operand)
    (h : filler.length = fillerSize pc o) :
    Agrees (List.range' (pc + 1 + fillerStart o) (fillerSize pc o)) (pc + 1)
      (sourceBytes pc (List.replicate (fillerSize pc o) 0) bound o)
      (sourceBytes pc filler bound o) := by
  cases o with
  | tableSwitch fallback low targets => exact (Agrees.zeros h).append (.refl _ _ _)
  | lookupSwitch fallback cases => exact (Agrees.zeros h).append (.refl _ _ _)
  | invokeInterface index count =>
    have hhead := Agrees.refl (List.range' (pc + 1 + 3) 1) (pc + 1) (Bytes.ofU16 index ++ [count])
    have hall := hhead.append (.zeros h)
    rwa [List.append_assoc, List.append_assoc] at hall
  | invokeDynamic index =>
    exact (Agrees.refl (List.range' (pc + 1 + 2) 2) (pc + 1) (Bytes.ofU16 index)).append (.zeros h)
  | _ =>
    obtain rfl := List.eq_nil_of_length_eq_zero h
    exact .refl _ _ _

theorem agrees_instruction {p : Nat × Instruction} {filler : Bytes} (bound : Int32)
    (h : filler.length = fillerSize p.1 p.2.operand) :
    Agrees (fillers p) p.1
      (withOpcode p.2 (sourceBytes p.1 (List.replicate (fillerSize p.1 p.2.operand) 0) bound
        p.2.operand))
      (withOpcode p.2 (sourceBytes p.1 filler bound p.2.operand)) := by
  have hoperand := agrees_operand bound p.2.operand h
  unfold withOpcode
  split_ifs with hwide
  · -- what follows `wide` has no filler
    have hnone : fillerSize p.1 p.2.operand = 0 := by
      unfold isWideForm at hwide
      unfold fillerSize
      split at hwide <;> simp_all
    rw [hnone] at h ⊢
    obtain rfl := List.eq_nil_of_length_eq_zero h
    exact .refl _ _ _
  · exact (Agrees.refl (fillers p) p.1 [p.2.opcode]).append hoperand

/-! ## Code -/

theorem wordAt?_append (before : Bytes) (n : Int32) (after : Bytes) :
    wordAt? (before ++ (Bytes.ofI32 n ++ after)) before.length = some n := by
  rw [wordAt?, List.drop_left, (Reader.reads_i32 n).run after]
  rfl

/-- The number in front of the cases of a switch stands in the code. -/
theorem inOrder_of_switchInOrder {p : Nat × Instruction} {filler : Bytes} {bound : Int32}
    {before after : Bytes} (haccounts : Accounts p.1 filler bound p.2.operand)
    (hbefore : before.length = p.1)
    (h : SwitchInOrder (before ++ (withOpcode p.2 (sourceBytes p.1 filler bound p.2.operand)
      ++ after)) p) : InOrder bound p.2.operand := by
  obtain ⟨pc, opcode, o⟩ := p
  obtain rfl : before.length = pc := hbefore
  obtain ⟨hfiller, _⟩ := haccounts
  have hfiller : filler.length = fillerSize before.length o := hfiller
  cases o with
  | tableSwitch fallback low targets =>
    refine h bound ?_
    have hword := wordAt?_append
      (before ++ ([opcode] ++ (filler ++ (jumpBytes before.length fallback ++ Bytes.ofI32 low))))
        bound
      (targets.flatMap (jumpBytes before.length) ++ after)
    have hlength : (before ++ ([opcode] ++ (filler ++ (jumpBytes before.length fallback ++
        Bytes.ofI32 low)))).length = before.length + 1 + padding before.length + 8 := by
      simp [hfiller, fillerSize, jumpBytes]
      omega
    rw [hlength] at hword
    simpa [withOpcode, isWideForm, sourceBytes] using hword
  | lookupSwitch fallback cases =>
    refine h bound ?_
    have hword := wordAt?_append
      (before ++ ([opcode] ++ (filler ++ jumpBytes before.length fallback))) bound
      ((cases.flatMap fun c => Bytes.ofI32 c.1 ++ jumpBytes before.length c.2) ++ after)
    have hlength : (before ++ ([opcode] ++ (filler ++ jumpBytes before.length fallback))).length
        = before.length + 1 + padding before.length + 4 := by
      simp [hfiller, fillerSize, jumpBytes]
      omega
    rw [hlength] at hword
    simpa [withOpcode, isWideForm, sourceBytes] using hword
  | _ => trivial

/-- Code is read from the sources of its instructions, at the offsets of their layout. -/
theorem sources_of_decodeAux {fuel : Nat} {done decoded : List (Nat × Instruction)} {c : Cursor}
    (h : decodeAux fuel done c = .ok decoded) (hfuel : c.rest.length ≤ fuel) :
    ∃ tail parts, decoded = done.reverse ++ tail ∧ List.Forall₂ Source tail parts ∧
      c.rest = parts.flatten ∧
      layoutFrom c.offset (tail.map (·.2)) = tail.map (·.1) ++ [c.offset + c.rest.length] := by
  induction fuel generalizing done c with
  | zero =>
    have hnil : c.rest = [] := List.eq_nil_of_length_eq_zero (Nat.le_zero.mp hfuel)
    exact ⟨[], [], by simpa [decodeAux] using h.symm, .nil, hnil, by simp [layoutFrom, hnil]⟩
  | succ fuel ih =>
    rw [decodeAux] at h
    split_ifs at h with hempty
    · have hnil : c.rest = [] := List.isEmpty_iff.mp hempty
      exact ⟨[], [], by simpa using h.symm, .nil, hnil, by simp [layoutFrom, hnil]⟩
    · cases hread : read c with
      | error e =>
        rw [hread] at h
        cases h
      | ok r =>
        obtain ⟨p, c'⟩ := r
        rw [hread] at h
        obtain ⟨hp, bytes, hsource, hrest, hoffset⟩ := source_of_read hread
        have hsize := hsource.length
        have hpos := sizeAt_pos p.1 p.2
        have hlength : c.rest.length = bytes.length + c'.rest.length := by
          rw [hrest, List.length_append]
        obtain ⟨tail, parts, rfl, hsources, hrest', hlayout⟩ := ih h (by omega)
        refine ⟨p :: tail, bytes :: parts, by simp, .cons hsource hsources, ?_, ?_⟩
        · rw [hrest, hrest', List.flatten_cons]
        · rw [hoffset, hsize, hp] at hlayout
          rw [List.map_cons, layoutFrom, hlayout, List.map_cons, List.cons_append, hp, hlength,
            hsize, hp, Nat.add_assoc]

/-- An instruction is written as its source, but for filler. -/
theorem bytesAt_of_source {pcs : Array Nat} {f : Label → Label} {p : Nat × Instruction}
    {bytes before after : Bytes} (h : Source p bytes) (hbefore : before.length = p.1)
    (hlabels : ∀ l ∈ p.2.labels, pcs[f l]? = some l)
    (horder : SwitchInOrder (before ++ (bytes ++ after)) p) :
    ∃ written, bytesAt pcs p.1 (p.2.mapLabels f) = .ok written ∧
      Agrees (fillers p) p.1 written bytes := by
  obtain ⟨filler, bound, rfl, haccounts⟩ := h
  have hbound := sourceBytes_writtenBound haccounts
    (inOrder_of_switchInOrder haccounts hbefore horder)
    (List.replicate (fillerSize p.1 p.2.operand) 0)
  have hbytes := operandBytes_eq haccounts hlabels
  have hwide : (p.2.mapLabels f).isWideForm = p.2.isWideForm := by
    obtain ⟨pc, opcode, o⟩ := p
    cases o <;> rfl
  refine ⟨_, ?_, agrees_instruction bound haccounts.1⟩
  rw [bytesAt, hwide]
  change (operandBytes pcs p.1 (p.2.operand.mapLabels f)).bind _ = _
  rw [hbytes, hbound]
  rfl

/-- Code is written as its sources, but for filler. -/
theorem parts_of_sources {pcs : Array Nat} {f : Label → Label} {tail : List (Nat × Instruction)}
    {parts : List Bytes} (hsources : List.Forall₂ Source tail parts) (before : Bytes)
    (hlayout : (layoutFrom before.length (tail.map (·.2))).take tail.length = tail.map (·.1))
    (hlabels : ∀ p ∈ tail, ∀ l ∈ p.2.labels, pcs[f l]? = some l)
    (horder : ∀ p ∈ tail, SwitchInOrder (before ++ parts.flatten) p) :
    ∃ written, ((tail.map fun p => p.2.mapLabels f).zip
        (layoutFrom before.length (tail.map (·.2)))).mapM
          (fun (i, pc) => bytesAt pcs pc i) = .ok written ∧
      Agrees (tail.flatMap fillers) before.length written.flatten parts.flatten := by
  induction hsources generalizing before with
  | nil => exact ⟨[], rfl, .refl _ _ _⟩
  | @cons p bytes tail parts hsource hsources ih =>
    have hp : before.length = p.1 := by
      simp only [List.map_cons, layoutFrom, List.length_cons, List.take_succ_cons,
        List.cons.injEq] at hlayout
      exact hlayout.1
    have hsize := hsource.length
    obtain ⟨first, hfirst, hagrees⟩ := bytesAt_of_source hsource hp (hlabels p List.mem_cons_self)
      (horder p List.mem_cons_self)
    have hnext : (before ++ bytes).length = before.length + p.2.sizeAt before.length := by
      rw [List.length_append, hsize, hp]
    obtain ⟨written, hwritten, hrest⟩ := ih (before ++ bytes)
      (by
        simp only [List.map_cons, layoutFrom, List.length_cons, List.take_succ_cons,
          List.cons.injEq] at hlayout
        rw [hnext, hlayout.2])
      (fun q hq => hlabels q (List.mem_cons_of_mem _ hq))
      (fun q hq => by
        have hq := horder q (List.mem_cons_of_mem _ hq)
        rwa [List.flatten_cons, ← List.append_assoc] at hq)
    refine ⟨first :: written, ?_, ?_⟩
    · rw [hnext] at hwritten
      simp only [List.map_cons, layoutFrom, List.zip_cons_cons, List.mapM_cons, hp ▸ hfirst,
        hwritten, Checked.bind_eq_ok, Checked.pure_eq_ok]
      exact ⟨_, rfl, _, rfl, rfl⟩
    · rw [List.flatMap_cons, List.flatten_cons, List.flatten_cons]
      refine Agrees.append (hp ▸ hagrees.mono (List.subset_append_left _ _)) ?_
      rw [← List.length_append]
      exact hrest.mono (List.subset_append_right _ _)

/-- The layout of instructions that were read is their offsets and the length of the code. -/
theorem layout_of_decode {code : Bytes} {decoded : List (Nat × Instruction)}
    (h : decode code = .ok decoded) :
    layout (decoded.map (·.2)) = boundaries decoded code.length := by
  obtain ⟨tail, parts, rfl, _, _, hlayout⟩ := sources_of_decodeAux h (Nat.le_refl _)
  simpa [layout, boundaries] using hlayout

/-- Labels that designate instructions or the end turn into positions. -/
theorem indexLabels_eq {bounds : List Nat} {decoded : List (Nat × Instruction)}
    (h : ∀ p ∈ decoded, ∀ l ∈ p.2.labels, l ∈ bounds) :
    indexLabels bounds decoded = .ok (decoded.map fun p => p.2.mapLabels bounds.idxOf) := by
  refine Checked.mapM_ok fun p hp => Instruction.mapLabelsM_ok fun l hl => ?_
  exact positionOf_of_mem (h p hp l hl)

/-- Code whose labels designate instructions or the end is written again as it was, but for filler.
-/
theorem encode_of_decode {code : Bytes} {decoded : List (Nat × Instruction)}
    (hsize : code.length ≤ 65535) (h : decode code = .ok decoded)
    (hlabels : ∀ p ∈ decoded, ∀ l ∈ p.2.labels, l ∈ boundaries decoded code.length)
    (horder : ∀ p ∈ decoded, SwitchInOrder code p) :
    ∃ written, encode (decoded.map fun p => p.2.mapLabels (boundaries decoded code.length).idxOf)
        = .ok written ∧ Agrees (decoded.flatMap fillers) 0 written code := by
  have hbounds := layout_of_decode h
  obtain ⟨tail, parts, rfl, hsources, hcode, hlayout⟩ := sources_of_decodeAux h (Nat.le_refl _)
  have hcode : code = parts.flatten := hcode
  have hget : ∀ l ∈ boundaries decoded code.length,
      (layout (decoded.map (·.2))).toArray[(boundaries decoded code.length).idxOf l]? = some l := by
    intro l hl
    rw [hbounds, List.getElem?_toArray]
    exact List.getElem?_idxOf hl
  have htake : (layoutFrom 0 (decoded.map (·.2))).take decoded.length = decoded.map (·.1) := by
    rw [hlayout]
    exact List.take_left' (by simp)
  obtain ⟨written, hwritten, hagrees⟩ := parts_of_sources hsources [] htake
    (fun p hp l hl => hget l (hlabels p hp l hl))
    (fun p hp => by
      rw [List.nil_append, ← hcode]
      exact horder p hp)
  have hmap : layout (decoded.map fun p => p.2.mapLabels (boundaries decoded code.length).idxOf)
      = layout (decoded.map (·.2)) := by
    have hcomp : (decoded.map fun p => p.2.mapLabels (boundaries decoded code.length).idxOf)
        = (decoded.map (·.2)).map (·.mapLabels (boundaries decoded code.length).idxOf) := by
      rw [List.map_map]
      rfl
    rw [hcomp, layout, layoutFrom_mapLabels, layout]
  have hlast : (layout (decoded.map (·.2))).getLastD 0 = code.length := by
    rw [hbounds, boundaries, List.getLastD_eq_getLast?, List.getLast?_concat, Option.getD_some]
  refine ⟨written.flatten, ?_, hcode ▸ hagrees⟩
  unfold encode
  rw [hmap]
  simp only [hlast]
  rw [if_neg (Nat.not_lt.mpr hsize)]
  rw [Checked.bind_eq_ok]
  exact ⟨written, hwritten, rfl⟩

/-- Instructions whose operands fit are read back from what is written, at the offsets of their
layout and with offsets for labels. Code whose labels designate instructions or the end is laid out
as it was, and is written again as it was, but for zeros in the place of filler. -/
theorem reading_and_writing_code :
    (∀ (is : List Instruction) (code : Bytes), (∀ i ∈ is, i.Fits) → encode is = .ok code →
      decode code = .ok (placed is)) ∧
    ∀ (code : Bytes) (decoded : List (Nat × Instruction)), code.length ≤ 65535 →
      decode code = .ok decoded →
      (∀ p ∈ decoded, ∀ l ∈ p.2.labels, l ∈ boundaries decoded code.length) →
      layout (decoded.map (·.2)) = boundaries decoded code.length ∧
      ((∀ p ∈ decoded, SwitchInOrder code p) →
        ∃ is written, indexLabels (boundaries decoded code.length) decoded = .ok is ∧
          encode is = .ok written ∧ written.length = code.length ∧
          (∀ k, k ∉ decoded.flatMap fillers → written[k]? = code[k]?) ∧
          ((∀ k ∈ decoded.flatMap fillers, code[k]? = some 0) → written = code)) := by
  refine ⟨fun is code hfits h => decode_encode hfits h, fun code decoded hsize h hlabels =>
    ⟨layout_of_decode h, fun horder => ?_⟩⟩
  obtain ⟨written, hwritten, hagrees⟩ := encode_of_decode hsize h hlabels horder
  refine ⟨_, written, indexLabels_eq hlabels, hwritten, hagrees.length, fun k hk => ?_,
    hagrees.eq_of_zero⟩
  by_contra hdiffer
  have hmem := (hagrees.differ k hdiffer).1
  rw [Nat.zero_add] at hmem
  exact hk hmem

/-- The laws for a switch over zero with junk for padding. -/
theorem reading_and_writing_code_switch :
    ∃ (code : Bytes) (decoded : List (Nat × Instruction)) (is : List Instruction) (written : Bytes),
      code = [3, 170, 7, 7, 0, 0, 0, 19, 0, 0, 0, 0, 0, 0, 0, 0, 0, 0, 0, 19, 177] ∧
      decode code = .ok decoded ∧ layout (decoded.map (·.2)) = [0, 1, 20, 21] ∧
      is = [⟨3, .empty⟩, ⟨170, .tableSwitch 2 0 [2]⟩, ⟨177, .empty⟩] ∧ encode is = .ok written ∧
      written[2]? = some 0 ∧ (∀ k, k ∉ [2, 3] → written[k]? = code[k]?) ∧
      decode written = .ok (placed is) := by
  let code : Bytes := [3, 170, 7, 7, 0, 0, 0, 19, 0, 0, 0, 0, 0, 0, 0, 0, 0, 0, 0, 19, 177]
  let decoded : List (Nat × Instruction) :=
    [(0, ⟨3, .empty⟩), (1, ⟨170, .tableSwitch 20 0 [20]⟩), (20, ⟨177, .empty⟩)]
  let is : List Instruction := [⟨3, .empty⟩, ⟨170, .tableSwitch 2 0 [2]⟩, ⟨177, .empty⟩]
  have hdecode : decode code = .ok decoded := by decide +kernel
  obtain ⟨hlayout, hwrites⟩ := reading_and_writing_code.2 code decoded (by decide) hdecode
    (by decide)
  obtain ⟨js, written, hindex, hencode, _, hsame, _⟩ := hwrites (by
    have hword : wordAt? code 12 = some 0 := by decide +kernel
    intro p hp
    simp only [decoded, List.mem_cons, List.not_mem_nil, or_false] at hp
    rcases hp with rfl | rfl | rfl
    · trivial
    · intro high hhigh
      obtain rfl : (0 : Int32) = high := Option.some.inj (hword.symm.trans hhigh)
      decide
    · trivial)
  have hjs : indexLabels (boundaries decoded code.length) decoded = .ok is := by decide +kernel
  obtain rfl : is = js := Except.ok.inj (hjs.symm.trans hindex)
  have hfits : ∀ i ∈ is, i.Fits := by
    intro i hi
    simp only [is, List.mem_cons, List.not_mem_nil, or_false] at hi
    rcases hi with rfl | rfl | rfl
    · exact ⟨rfl, trivial⟩
    · exact ⟨rfl, by decide, by decide⟩
    · exact ⟨rfl, trivial⟩
  have hwritten : encode is
      = .ok [3, 170, 0, 0, 0, 0, 0, 19, 0, 0, 0, 0, 0, 0, 0, 0, 0, 0, 0, 19, 177] :=
        by decide +kernel
  refine ⟨code, decoded, is, written, rfl, hdecode, hlayout, rfl, hencode, ?_, hsame,
    reading_and_writing_code.1 is written hfits hencode⟩
  obtain rfl := Except.ok.inj (hwritten.symm.trans hencode)
  rfl

end ClassSynth.Instruction
