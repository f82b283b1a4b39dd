import ClassSynth.Instruction.Code
import ClassSynth.Proofs.Bytes.Reading
import ClassSynth.Proofs.Checked
import Mathlib.Data.FinEnum

/-!
# Reading written code

Encoding a list of instructions whose operands fit their opcodes and decoding the bytes gives the
instructions back, each at its offset in the layout, with the offsets of its labels in the place of
their positions.
-/

namespace ClassSynth

/-! ## Operands that fit -/

/-- The operand loses nothing when it is written: narrow slots and increments fit in one byte, and
the bounds of a switch fit in four. -/
def Operand.Narrow : Operand → Prop
  | .slot index wide => wide = false → index.toNat < 256
  | .increment index delta wide =>
    wide = false → index.toNat < 256 ∧ -128 ≤ delta.toInt ∧ delta.toInt ≤ 127
  | .tableSwitch _ low targets =>
    -2147483648 ≤ low.toInt + targets.length - 1 ∧ low.toInt + targets.length - 1 ≤ 2147483647
  | .lookupSwitch _ cases => cases.length ≤ 2147483647
  | _ => True

/-- The instruction can be written and read again. -/
structure Instruction.Fits (i : Instruction) : Prop where
  shape : Opcode.shape? i.opcode = some i.operand.shape
  narrow : i.operand.Narrow

namespace Instruction

theorem ne_wide_of_shape {s : OperandShape} :
    ∀ opcode : UInt8, Opcode.shape? opcode = some s → (opcode == Opcode.wide) = false := by
  cases s <;> decide +kernel

theorem usesSlot_of_shape :
    ∀ opcode : UInt8, Opcode.shape? opcode = some .slot → Opcode.usesSlot opcode = true := by
  decide +kernel

theorem ne_iinc_of_shape :
    ∀ opcode : UInt8, Opcode.shape? opcode = some .slot → (opcode == Opcode.iinc) = false := by
  decide +kernel

theorem eq_iinc_of_shape :
    ∀ opcode : UInt8, Opcode.shape? opcode = some .increment → (opcode == Opcode.iinc) = true := by
  decide +kernel

/-! ## Operands -/

/-- The offset a position stands for. -/
def targetAt (pcs : Array Nat) (l : Label) : Label := pcs[l]?.getD 0

/-- Offsets that fit in two bytes. -/
def Offsets16 (pcs : Array Nat) : Prop :=
  ∀ (l target : Nat), pcs[l]? = some target → target ≤ 65535

theorem offsetOf_eq_ok {pcs : Array Nat} {pc : Nat} {l : Label} {offset : Int} :
    offsetOf pcs pc l = .ok offset ↔
      ∃ target, pcs[l]? = some target ∧ offset = (target : Int) - pc := by
  unfold offsetOf
  cases h : pcs[l]? <;> simp [eq_comm]

theorem targetOf_eq {pc target : Nat} (h : target ≤ 0xffffffff) :
    targetOf pc ((target : Int) - pc) = pure target := by
  have hsum : (pc : Int) + ((target : Int) - pc) = target := by omega
  simp only [targetOf, hsum]
  rw [if_neg (by omega), Int.toNat_natCast]

theorem reads_branch {pcs : Array Nat} (hpcs : Offsets16 pcs) {pc : Nat} {l : Label} {bs : Bytes}
    (h : operandBytes pcs pc (.branch l) = .ok bs) :
    (readOperand pc .branch).Reads bs (.branch (targetAt pcs l)) := by
  simp only [operandBytes, Checked.bind_eq_ok, offsetOf_eq_ok] at h
  obtain ⟨_, ⟨target, hget, rfl⟩, hbs⟩ := h
  split_ifs at hbs with hrange
  obtain rfl := Except.ok.inj hbs
  have hoffset := Int16.toInt_ofInt_of_le (n := (target : Int) - pc) (by omega) (by omega)
  have htarget : targetOf pc (Int16.ofInt ((target : Int) - pc)).toInt = pure target := by
    rw [hoffset, targetOf_eq (Nat.le_trans (hpcs _ _ hget) (by decide))]
  have hread := (Reader.reads_i16 (Int16.ofInt ((target : Int) - pc))).bind
    (f := fun n => targetOf pc n.toInt >>= fun t => pure (Operand.branch t)) (q := [])
    (b := .branch target) (by rw [htarget]; exact Reader.Reads.pure _)
  simpa [readOperand, targetAt, hget] using hread

theorem reads_readTarget {pcs : Array Nat} (hpcs : Offsets16 pcs) {pc : Nat} (hpc : pc ≤ 65535)
    {l : Label} {bs : Bytes} (h : wideOffset pcs pc l = .ok bs) :
    (readTarget pc).Reads bs (targetAt pcs l) := by
  simp only [wideOffset, Checked.bind_eq_ok, offsetOf_eq_ok, Checked.pure_eq_ok] at h
  obtain ⟨_, ⟨target, hget, rfl⟩, rfl⟩ := h
  have htarget16 := hpcs _ _ hget
  have hoffset := Int32.toInt_ofInt_of_le (n := (target : Int) - pc) (by omega) (by omega)
  have htarget : targetOf pc (Int32.ofInt ((target : Int) - pc)).toInt = pure target := by
    rw [hoffset, targetOf_eq (Nat.le_trans htarget16 (by decide))]
  have hread := (Reader.reads_i32 (Int32.ofInt ((target : Int) - pc))).bind
    (f := fun n => targetOf pc n.toInt) (q := []) (b := target)
    (by rw [htarget]; exact Reader.Reads.pure _)
  simpa [readTarget, targetAt, hget] using hread

theorem forall₂_reads_targets {pcs : Array Nat} (hpcs : Offsets16 pcs) {pc : Nat}
    (hpc : pc ≤ 65535) {targets : List Label} {parts : List Bytes}
    (h : targets.mapM (wideOffset pcs pc) = .ok parts) :
    List.Forall₂ (readTarget pc).Reads parts (targets.map (targetAt pcs)) := by
  rw [Checked.mapM_eq_ok] at h
  rw [List.forall₂_map_right_iff]
  exact (h.imp fun _ _ hl => reads_readTarget hpcs hpc hl).flip

/-- One case of a lookup switch is written as its key and its jump. -/
def caseBytes (pcs : Array Nat) (pc : Nat) (c : Int32 × Label) : Except ClassFormatError Bytes := do
  return Bytes.ofI32 c.1 ++ (← wideOffset pcs pc c.2)

theorem forall₂_reads_cases {pcs : Array Nat} (hpcs : Offsets16 pcs) {pc : Nat}
    (hpc : pc ≤ 65535) {cases : List (Int32 × Label)} {parts : List Bytes}
    (h : cases.mapM (caseBytes pcs pc) = .ok parts) :
    List.Forall₂ (readCase pc).Reads parts (cases.map fun c => (c.1, targetAt pcs c.2)) := by
  rw [Checked.mapM_eq_ok] at h
  rw [List.forall₂_map_right_iff]
  refine (h.imp fun c bs hc => ?_).flip
  simp only [caseBytes, Checked.bind_eq_ok, Checked.pure_eq_ok] at hc
  obtain ⟨target, htarget, rfl⟩ := hc
  exact (Reader.reads_i32 c.1).bind ((reads_readTarget hpcs hpc htarget).map)

theorem reads_padding (pc : Nat) :
    (Reader.take (padding pc)).Reads (List.replicate (padding pc) 0)
      (List.replicate (padding pc) 0) := by
  simpa using Reader.reads_take (List.replicate (padding pc) 0)

theorem high_toInt {low : Int32} {n : Nat}
    (hlow : -2147483648 ≤ low.toInt + n - 1) (hhigh : low.toInt + n - 1 ≤ 2147483647) :
    (low + Int32.ofNat n - 1).toInt = low.toInt + n - 1 := by
  have hsum : low + Int32.ofNat n - 1 = Int32.ofInt (low.toInt + n - 1) := by
    rw [Int32.ofInt_sub, Int32.ofInt_add, Int32.ofInt_toInt, Int32.ofInt_eq_ofNat]
    rfl
  rw [hsum, Int32.toInt_ofInt_of_le (by omega) (by omega)]

theorem reads_tableSwitch {pcs : Array Nat} (hpcs : Offsets16 pcs) {pc : Nat} (hpc : pc ≤ 65535)
    {fallback : Label} {low : Int32} {targets : List Label} {bs : Bytes}
    (hnarrow : Operand.Narrow (.tableSwitch fallback low targets))
    (h : operandBytes pcs pc (.tableSwitch fallback low targets) = .ok bs) :
    (readOperand pc .tableSwitch).Reads bs
      (.tableSwitch (targetAt pcs fallback) low (targets.map (targetAt pcs))) := by
  simp only [operandBytes, Checked.bind_eq_ok, Checked.pure_eq_ok] at h
  obtain ⟨fallbackBytes, hfallback, parts, hparts, rfl⟩ := h
  simp only [List.append_assoc]
  refine (reads_padding pc).bind ?_
  refine (reads_readTarget hpcs hpc hfallback).bind ?_
  refine (Reader.reads_i32 low).bind ?_
  refine (Reader.reads_i32 _).bind ?_
  have hreads := forall₂_reads_targets hpcs hpc hparts
  have hcount : ((low + Int32.ofNat parts.length - 1).toInt - low.toInt + 1).toNat
      = (targets.map (targetAt pcs)).length := by
    rw [hreads.length_eq, List.length_map, high_toInt hnarrow.1 hnarrow.2]
    omega
  simp only [hcount]
  exact (Reader.reads_many hreads).map

theorem reads_lookupSwitch {pcs : Array Nat} (hpcs : Offsets16 pcs) {pc : Nat} (hpc : pc ≤ 65535)
    {fallback : Label} {cases : List (Int32 × Label)} {bs : Bytes}
    (hnarrow : Operand.Narrow (.lookupSwitch fallback cases))
    (h : operandBytes pcs pc (.lookupSwitch fallback cases) = .ok bs) :
    (readOperand pc .lookupSwitch).Reads bs
      (.lookupSwitch (targetAt pcs fallback) (cases.map fun c => (c.1, targetAt pcs c.2))) := by
  simp only [operandBytes, Checked.bind_eq_ok, Checked.pure_eq_ok] at h
  obtain ⟨fallbackBytes, hfallback, parts, hparts, rfl⟩ := h
  simp only [List.append_assoc]
  refine (reads_padding pc).bind ?_
  refine (reads_readTarget hpcs hpc hfallback).bind ?_
  refine (Reader.reads_i32 _).bind ?_
  have hreads := forall₂_reads_cases hpcs hpc hparts
  have hcount : (Int32.ofNat parts.length).toInt.toNat
      = (cases.map fun c => (c.1, targetAt pcs c.2)).length := by
    rw [hreads.length_eq, List.length_map, Int32.toInt_ofNat_of_lt (Nat.lt_succ_of_le hnarrow),
      Int.toNat_natCast]
  simp only [hcount]
  exact (Reader.reads_many hreads).map

theorem reads_slot {index : UInt16} (hindex : index.toNat < 256) :
    (Reader.u8 >>= fun n => pure (Operand.slot n.toUInt16 false)).Reads [index.toUInt8]
      (.slot index false) := by
  have h := (Reader.reads_u8 index.toUInt8).map (g := fun n => Operand.slot n.toUInt16 false)
  have hsame : index.toUInt8.toUInt16 = index := by
    apply UInt16.toNat_inj.mp
    simpa using hindex
  rwa [hsame] at h

theorem reads_increment {pc : Nat} {index : UInt16} {delta : Int16} (hindex : index.toNat < 256)
    (hlow : -128 ≤ delta.toInt) (hhigh : delta.toInt ≤ 127) :
    (readOperand pc .increment).Reads [index.toUInt8, delta.toInt8.toUInt8]
      (.increment index delta false) := by
  have hsame : index.toUInt8.toUInt16 = index := by
    apply UInt16.toNat_inj.mp
    simpa using hindex
  have hdelta : delta.toInt8.toUInt8.toInt8.toInt16 = delta := by
    apply Int16.toInt.inj
    rw [Int8.toInt8_toUInt8, Int8.toInt_toInt16, Int16.toInt_toInt8,
      Int.bmod_eq_of_le (by omega) (by omega)]
  refine (Reader.reads_u8 index.toUInt8).bind ?_
  rw [hsame]
  have h := (Reader.reads_u8 delta.toInt8.toUInt8).map
    (g := fun n => Operand.increment index n.toInt8.toInt16 false)
  rwa [hdelta] at h

/-- An operand that does not follow `wide` is read as it was written. -/
theorem reads_operand {pcs : Array Nat} (hpcs : Offsets16 pcs) {pc : Nat} (hpc : pc ≤ 65535)
    {i : Instruction} (hnarrow : i.operand.Narrow) (hwide : i.isWideForm = false) {bs : Bytes}
    (h : operandBytes pcs pc i.operand = .ok bs) :
    (readOperand pc i.operand.shape).Reads bs (i.operand.mapLabels (targetAt pcs)) := by
  obtain ⟨opcode, operand⟩ := i
  cases operand with
  | empty =>
    obtain rfl := Except.ok.inj h
    exact Reader.Reads.pure _
  | byte value =>
    obtain rfl := Except.ok.inj h
    exact (Reader.reads_u8 value).map
  | short value =>
    obtain rfl := Except.ok.inj h
    exact (Reader.reads_u16 value).map
  | slot index wide =>
    obtain rfl : wide = false := hwide
    obtain rfl := Except.ok.inj h
    exact reads_slot (hnarrow rfl)
  | increment index delta wide =>
    obtain rfl : wide = false := hwide
    obtain rfl := Except.ok.inj h
    exact reads_increment (hnarrow rfl).1 (hnarrow rfl).2.1 (hnarrow rfl).2.2
  | branch target => exact reads_branch hpcs h
  | wideBranch target => exact (reads_readTarget hpcs hpc h).map
  | tableSwitch fallback low targets => exact reads_tableSwitch hpcs hpc hnarrow h
  | lookupSwitch fallback cases => exact reads_lookupSwitch hpcs hpc hnarrow h
  | invokeInterface index count =>
    obtain rfl := Except.ok.inj h
    exact (Reader.reads_u16 index).bind ((Reader.reads_u8 count).bind ((Reader.reads_u8 0).map))
  | invokeDynamic index =>
    obtain rfl := Except.ok.inj h
    exact (Reader.reads_u16 index).bind ((Reader.reads_u16 0).map)
  | newMultiArray index dims =>
    obtain rfl := Except.ok.inj h
    exact (Reader.reads_u16 index).bind ((Reader.reads_u8 dims).map)

/-- What follows `wide` is read as it was written. -/
theorem reads_wide {pcs : Array Nat} {pc : Nat} {i : Instruction} (hfits : i.Fits)
    (hwide : i.isWideForm = true) {bs : Bytes} (h : operandBytes pcs pc i.operand = .ok bs) :
    (readWide pc).Reads (i.opcode :: bs) (i.mapLabels (targetAt pcs)) := by
  obtain ⟨opcode, operand⟩ := i
  cases operand with
  | slot index wide =>
    obtain rfl : wide = true := hwide
    obtain rfl := Except.ok.inj h
    refine (Reader.reads_u8 opcode).bind ?_
    refine (Reader.reads_u16 index).bind (q := []) ?_
    simp only [ne_iinc_of_shape opcode hfits.shape, usesSlot_of_shape opcode hfits.shape]
    exact Reader.Reads.pure _
  | increment index delta wide =>
    obtain rfl : wide = true := hwide
    obtain rfl := Except.ok.inj h
    refine (Reader.reads_u8 opcode).bind ?_
    refine (Reader.reads_u16 index).bind ?_
    simp only [eq_iinc_of_shape opcode hfits.shape]
    exact (Reader.reads_i16 delta).map
  | _ => cases hwide

/-! ## Instructions -/

/-- An instruction that fits is read at its offset as it was written there, with offsets for
labels. -/
theorem readsAt_bytesAt {pcs : Array Nat} (hpcs : Offsets16 pcs) {pc : Nat} (hpc : pc ≤ 65535)
    {i : Instruction} (hfits : i.Fits) {bs : Bytes} (h : bytesAt pcs pc i = .ok bs) :
    read.ReadsAt pc bs (pc, i.mapLabels (targetAt pcs)) := by
  simp only [bytesAt, Checked.bind_eq_ok, Checked.pure_eq_ok] at h
  obtain ⟨operand, hoperand, rfl⟩ := h
  have hoffset : Reader.offset.ReadsAt pc [] pc := fun _ => rfl
  cases hwide : i.isWideForm with
  | true =>
    refine hoffset.bind ?_
    refine (Reader.reads_u8 Opcode.wide).bind ?_ pc
    exact (reads_wide hfits hwide hoperand).map
  | false =>
    refine hoffset.bind ?_
    refine (Reader.reads_u8 i.opcode).bind (q := operand) ?_ pc
    have hread := (reads_operand hpcs hpc hfits.narrow hwide hoperand).map
      (g := fun o => (pc, Instruction.mk i.opcode o))
    simpa [ne_wide_of_shape i.opcode hfits.shape, hfits.shape, mapLabels] using hread

theorem length_flatten_of_forall {parts : List Bytes} {n : Nat} (h : ∀ p ∈ parts, p.length = n) :
    parts.flatten.length = n * parts.length := by
  induction parts with
  | nil => rfl
  | cons p parts ih =>
    rw [List.flatten_cons, List.length_append, h p List.mem_cons_self,
      ih fun q hq => h q (List.mem_cons_of_mem _ hq), List.length_cons, Nat.mul_succ, Nat.add_comm]

theorem length_wideOffset {pcs : Array Nat} {pc : Nat} {l : Label} {bs : Bytes}
    (h : wideOffset pcs pc l = .ok bs) : bs.length = 4 := by
  simp only [wideOffset, Checked.bind_eq_ok, Checked.pure_eq_ok] at h
  obtain ⟨_, _, rfl⟩ := h
  rfl

theorem length_targets {pcs : Array Nat} {pc : Nat} {targets : List Label} {parts : List Bytes}
    (h : targets.mapM (wideOffset pcs pc) = .ok parts) :
    parts.flatten.length = 4 * targets.length := by
  rw [Checked.mapM_eq_ok] at h
  rw [h.length_eq]
  refine length_flatten_of_forall fun p hp => ?_
  obtain ⟨l, _, hl⟩ := Checked.exists_of_mem_right h hp
  exact length_wideOffset hl

theorem length_cases {pcs : Array Nat} {pc : Nat} {cases : List (Int32 × Label)}
    {parts : List Bytes} (h : cases.mapM (caseBytes pcs pc) = .ok parts) :
    parts.flatten.length = 8 * cases.length := by
  rw [Checked.mapM_eq_ok] at h
  rw [h.length_eq]
  refine length_flatten_of_forall fun p hp => ?_
  obtain ⟨c, _, hc⟩ := Checked.exists_of_mem_right h hp
  simp only [caseBytes, Checked.bind_eq_ok, Checked.pure_eq_ok] at hc
  obtain ⟨target, htarget, rfl⟩ := hc
  simp [length_wideOffset htarget]

/-- An instruction takes as many bytes as the layout gives it. -/
theorem length_bytesAt {pcs : Array Nat} {pc : Nat} {i : Instruction} {bs : Bytes}
    (h : bytesAt pcs pc i = .ok bs) : bs.length = i.sizeAt pc := by
  simp only [bytesAt, Checked.bind_eq_ok, Checked.pure_eq_ok] at h
  obtain ⟨operand, hoperand, rfl⟩ := h
  obtain ⟨opcode, o⟩ := i
  cases o with
  | slot index wide => cases wide <;> (obtain rfl := Except.ok.inj hoperand) <;> rfl
  | increment index delta wide => cases wide <;> (obtain rfl := Except.ok.inj hoperand) <;> rfl
  | branch target =>
    simp only [operandBytes, Checked.bind_eq_ok] at hoperand
    obtain ⟨offset, _, hbs⟩ := hoperand
    split_ifs at hbs
    obtain rfl := Except.ok.inj hbs
    rfl
  | wideBranch target =>
    have hlen := length_wideOffset hoperand
    simp [isWideForm, sizeAt, hlen]
  | tableSwitch fallback low targets =>
    simp only [operandBytes, Checked.bind_eq_ok, Checked.pure_eq_ok] at hoperand
    obtain ⟨fallbackBytes, hfallback, parts, hparts, rfl⟩ := hoperand
    simp [isWideForm, sizeAt, length_wideOffset hfallback, length_targets hparts]
    omega
  | lookupSwitch fallback cases =>
    simp only [operandBytes, Checked.bind_eq_ok, Checked.pure_eq_ok] at hoperand
    obtain ⟨fallbackBytes, hfallback, parts, hparts, rfl⟩ := hoperand
    simp [isWideForm, sizeAt, length_wideOffset hfallback, length_cases hparts]
    omega
  | _ =>
    obtain rfl := Except.ok.inj hoperand
    rfl

/-! ## What is read -/

theorem gives_targetOf (pc : Nat) (offset : Int) :
    (targetOf pc offset).Gives fun _ => True := by
  simp only [targetOf]
  split_ifs
  · exact .fail
  · exact .pure trivial

theorem gives_readTarget (pc : Nat) : (readTarget pc).Gives fun _ => True :=
  Reader.Gives.i32.bind fun _ _ => gives_targetOf pc _

theorem gives_readCase (pc : Nat) : (readCase pc).Gives fun _ => True :=
  Reader.Gives.i32.bind fun _ _ => (gives_readTarget pc).bind fun _ _ => .pure trivial

theorem narrow_tableSwitch {fallback : Label} {low high : Int32} {targets : List Label}
    (h : targets.length = (high.toInt - low.toInt + 1).toNat) :
    Operand.Narrow (.tableSwitch fallback low targets) := by
  have hlow := low.le_toInt
  have hlow' := low.toInt_lt
  have hhigh := high.le_toInt
  have hhigh' := high.toInt_lt
  simp only [Operand.Narrow, h]
  omega

/-- An operand that is read has the shape it was read for, and it can be written again. -/
theorem gives_readOperand (pc : Nat) (s : OperandShape) :
    (readOperand pc s).Gives fun o => o.shape = s ∧ o.Narrow := by
  cases s with
  | empty => exact .pure ⟨rfl, trivial⟩
  | byte => exact Reader.Gives.u8.bind fun _ _ => .pure ⟨rfl, trivial⟩
  | short => exact Reader.Gives.u16.bind fun _ _ => .pure ⟨rfl, trivial⟩
  | slot =>
    refine Reader.Gives.u8.bind fun index _ => .pure ⟨rfl, fun _ => ?_⟩
    simpa using index.toNat_lt
  | increment =>
    refine Reader.Gives.u8.bind fun index _ => Reader.Gives.u8.bind fun delta _ =>
      .pure ⟨rfl, fun _ => ⟨by simpa using index.toNat_lt, ?_⟩⟩
    have hlow := delta.toInt8.le_toInt
    have hhigh := delta.toInt8.toInt_lt
    rw [Int8.toInt_toInt16]
    omega
  | branch =>
    exact Reader.Gives.i16.bind fun _ _ => (gives_targetOf pc _).bind fun _ _ =>
      .pure ⟨rfl, trivial⟩
  | wideBranch => exact (gives_readTarget pc).bind fun _ _ => .pure ⟨rfl, trivial⟩
  | tableSwitch =>
    refine (Reader.Gives.take _).bind fun _ _ => (gives_readTarget pc).bind fun _ _ =>
      Reader.Gives.i32.bind fun _ _ => Reader.Gives.i32.bind fun _ _ =>
      ((gives_readTarget pc).many _).bind fun targets htargets => .pure ⟨rfl, ?_⟩
    exact narrow_tableSwitch htargets.1
  | lookupSwitch =>
    refine (Reader.Gives.take _).bind fun _ _ => (gives_readTarget pc).bind fun _ _ =>
      Reader.Gives.i32.bind fun count _ =>
      ((gives_readCase pc).many _).bind fun cases hcases => .pure ⟨rfl, ?_⟩
    have hcount := count.toInt_lt
    simp only [Operand.Narrow, hcases.1]
    omega
  | invokeInterface =>
    exact Reader.Gives.u16.bind fun _ _ => Reader.Gives.u8.bind fun _ _ =>
      Reader.Gives.u8.bind fun _ _ => .pure ⟨rfl, trivial⟩
  | invokeDynamic =>
    exact Reader.Gives.u16.bind fun _ _ => Reader.Gives.u16.bind fun _ _ => .pure ⟨rfl, trivial⟩
  | newMultiArray =>
    exact Reader.Gives.u16.bind fun _ _ => Reader.Gives.u8.bind fun _ _ => .pure ⟨rfl, trivial⟩

theorem shape_of_usesSlot :
    ∀ opcode : UInt8, Opcode.usesSlot opcode = true → Opcode.shape? opcode = some .slot := by
  decide +kernel

theorem gives_readWide (pc : Nat) : (readWide pc).Gives Fits := by
  refine Reader.Gives.u8.bind fun opcode _ => Reader.Gives.u16.bind fun index _ => ?_
  split_ifs with hiinc hslot
  · refine Reader.Gives.i16.bind fun delta _ => .pure ⟨?_, fun h => nomatch h⟩
    rw [eq_of_beq hiinc]
    rfl
  · exact .pure ⟨shape_of_usesSlot opcode hslot, fun h => nomatch h⟩
  · exact .fail

/-- A reading step gives the offset it started from with an instruction that can be written again,
and takes at least one byte. -/
theorem of_read {c c' : Cursor} {p : Nat × Instruction} (h : read c = .ok (p, c')) :
    p.1 = c.offset ∧ p.2.Fits ∧
      ∃ b bytes, c.rest = b :: bytes ++ c'.rest ∧ c'.offset = c.offset + bytes.length + 1 := by
  obtain ⟨pc, c₁, hpc, h⟩ := Reader.bind_eq_ok.mp h
  obtain ⟨rfl, rfl⟩ := Prod.mk.inj (Except.ok.inj hpc)
  obtain ⟨opcode, c₂, hopcode, h⟩ := Reader.bind_eq_ok.mp h
  obtain ⟨hc₂, hoffset₂⟩ : c.rest = opcode :: c₂.rest ∧ c₂.offset = c.offset + 1 := by
    unfold Reader.u8 at hopcode
    split at hopcode
    · next b rest hrest =>
      obtain ⟨rfl, rfl⟩ := Prod.mk.inj (Except.ok.inj hopcode)
      exact ⟨hrest, rfl⟩
    · cases hopcode
  -- whatever follows the opcode is read by one of two readers, with the same consequences
  have hrest : ∀ {r : Reader Instruction}, r.Gives Fits →
      (r >>= fun i => pure (c.offset, i)) c₂ = .ok (p, c') →
      p.1 = c.offset ∧ p.2.Fits ∧
        ∃ b bytes, c.rest = b :: bytes ++ c'.rest ∧ c'.offset = c.offset + bytes.length + 1 := by
    intro r hr hrun
    obtain ⟨i, c₃, hi, hp⟩ := Reader.bind_eq_ok.mp hrun
    obtain ⟨rfl, rfl⟩ := Prod.mk.inj (Reader.pure_eq_ok.mp hp)
    obtain ⟨hfits, bytes, hbytes, hoffset⟩ := hr _ _ _ hi
    refine ⟨rfl, hfits, opcode, bytes, by rw [hc₂, hbytes]; rfl, ?_⟩
    rw [hoffset, hoffset₂]
    omega
  by_cases hwide : (opcode == Opcode.wide) = true
  · rw [if_pos hwide] at h
    exact hrest (gives_readWide c.offset) h
  · rw [if_neg hwide] at h
    cases hshape : Opcode.shape? opcode with
    | none =>
      rw [hshape] at h
      cases h
    | some shape =>
      rw [hshape] at h
      have hgives : (readOperand c.offset shape >>= fun o =>
          pure (Instruction.mk opcode o)).Gives Fits :=
        (gives_readOperand c.offset shape).bind fun o ho => .pure ⟨ho.1 ▸ hshape, ho.2⟩
      refine hrest hgives ?_
      simpa only [bind_assoc, pure_bind] using h

end Instruction

end ClassSynth
