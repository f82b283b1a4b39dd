import ClassSynth.Proofs.Patch.Writing

/-!
# Images of instructions

An edit sends each position of the old code to a position of the new code, and with it every offset
that is a boundary. If the images increase, the instructions from one image up to the next stand for
the old instruction, and a range of the new code covers them exactly when the old range covered
that instruction (`covers_image`).
-/

namespace ClassSynth

/-- Frames in order between two offsets. -/
theorem FrameState.length_le_of_pairwise {frames : List FrameState}
    (h : frames.Pairwise (·.pc < ·.pc)) {first last : Nat}
    (hbounds : ∀ s ∈ frames, first ≤ s.pc ∧ s.pc ≤ last) : frames.length ≤ last + 1 - first := by
  have hnodup : (frames.map (·.pc)).Nodup := List.pairwise_map.mpr (h.imp Nat.ne_of_lt)
  have hsub : frames.map (·.pc) ⊆ List.range' first (last + 1 - first) := by
    intro pc hpc
    obtain ⟨s, hs, rfl⟩ := List.mem_map.mp hpc
    have hs := hbounds s hs
    exact List.mem_range'_1.mpr (by omega)
  simpa using (hnodup.subperm hsub).length_le

/-- The range covers what stands at an offset. -/
def Covers (start stop pc : Nat) : Prop :=
  start ≤ pc ∧ pc < stop

namespace CodeReading

/-! ## Offsets and positions -/

/-- Instructions with their offsets and labels replaced. -/
def relocate (f : Nat → Nat) (code : List (Nat × Instruction)) : List (Nat × Instruction) :=
  code.map fun (pc, i) => (f pc, i.mapLabels f)

variable {d : CodeReading}

@[simp] theorem length_boundaries (d : CodeReading) : d.boundaries.length = d.code.length + 1 := by
  simp [boundaries, ClassSynth.boundaries]

theorem position_le {pc : Nat} (hpc : pc ∈ d.boundaries) : d.position pc ≤ d.code.length := by
  have hlt := List.idxOf_lt_length_iff.mpr hpc
  rw [length_boundaries] at hlt
  exact Nat.le_of_lt_succ hlt

theorem lt_length {p : Nat} (hp : p ≤ d.code.length) : p < d.boundaries.length := by
  rw [length_boundaries]
  omega

theorem offset_eq_getElem {p : Nat} (hp : p < d.boundaries.length) :
    d.offset p = d.boundaries[p] := by
  rw [offset, List.getD_eq_getElem?_getD, List.getElem?_eq_getElem hp, Option.getD_some]

theorem offset_mem {p : Nat} (hp : p ≤ d.code.length) : d.offset p ∈ d.boundaries := by
  rw [offset_eq_getElem (lt_length hp)]
  exact List.getElem_mem _

theorem offset_position {pc : Nat} (hpc : pc ∈ d.boundaries) : d.offset (d.position pc) = pc := by
  rw [offset_eq_getElem (lt_length (position_le hpc))]
  exact List.getElem_idxOf _

theorem fst_mem_boundaries {p : Nat × Instruction} (hp : p ∈ d.code) : p.1 ∈ d.boundaries :=
  List.mem_append_left _ (List.mem_map_of_mem hp)

theorem fst_getElem {j : Nat} (hj : j < d.code.length) : d.code[j].1 = d.offset j := by
  rw [offset_eq_getElem (lt_length (Nat.le_of_lt hj))]
  simp [boundaries, ClassSynth.boundaries, List.getElem_append_left, hj]

theorem offset_length (d : CodeReading) : d.offset d.code.length = d.size := by
  rw [offset_eq_getElem (lt_length (Nat.le_refl _))]
  simp [boundaries, ClassSynth.boundaries]

namespace Closed

variable (h : d.Closed)
include h

theorem position_offset {p : Nat} (hp : p ≤ d.code.length) : d.position (d.offset p) = p := by
  have hnodup : d.boundaries.Nodup := h.increasing.imp Nat.ne_of_lt
  rw [offset_eq_getElem (lt_length hp)]
  exact hnodup.idxOf_getElem _ _

@[simp] theorem position_fst {j : Nat} (hj : j < d.code.length) : d.position d.code[j].1 = j := by
  rw [fst_getElem hj, h.position_offset (Nat.le_of_lt hj)]

theorem offset_lt {p q : Nat} (hpq : p < q) (hq : q ≤ d.code.length) : d.offset p < d.offset q := by
  rw [offset_eq_getElem (lt_length (Nat.le_trans (Nat.le_of_lt hpq) hq)),
    offset_eq_getElem (lt_length hq)]
  exact List.pairwise_iff_getElem.mp h.increasing p q _ _ hpq

theorem offset_lt_iff {p q : Nat} (hp : p ≤ d.code.length) (hq : q ≤ d.code.length) :
    d.offset p < d.offset q ↔ p < q := by
  refine ⟨fun hlt => ?_, fun hpq => h.offset_lt hpq hq⟩
  by_contra hle
  rcases Nat.lt_or_eq_of_le (Nat.le_of_not_lt hle) with hqp | rfl
  · exact Nat.lt_asymm hlt (h.offset_lt hqp hp)
  · exact Nat.lt_irrefl _ hlt

theorem position_lt_iff {a b : Nat} (ha : a ∈ d.boundaries) (hb : b ∈ d.boundaries) :
    d.position a < d.position b ↔ a < b := by
  rw [← h.offset_lt_iff (position_le ha) (position_le hb), offset_position ha, offset_position hb]

theorem position_zero : d.position 0 = 0 := by
  obtain ⟨tail, htail⟩ := List.head?_eq_some_iff.mp h.start
  rw [position, htail, List.idxOf_cons_self]

theorem position_size : d.position d.size = d.code.length := by
  rw [← offset_length, h.position_offset (Nat.le_refl _)]

theorem position_eq_zero {pc : Nat} (hpc : pc ∈ d.boundaries) (hzero : d.position pc = 0) :
    pc = 0 := by
  have hmem : 0 ∈ d.boundaries := List.mem_of_mem_head? h.start
  calc pc = d.offset (d.position pc) := (offset_position hpc).symm
    _ = d.offset (d.position 0) := by rw [hzero, h.position_zero]
    _ = 0 := offset_position hmem

theorem covers_iff {start stop j : Nat} (hstart : start ∈ d.boundaries)
    (hstop : stop ∈ d.boundaries) (hj : j ≤ d.code.length) :
    Covers start stop (d.offset j) ↔ d.position start ≤ j ∧ j < d.position stop := by
  have hj' := offset_mem hj
  rw [Covers, ← Nat.not_lt, ← h.position_lt_iff hj' hstart, ← h.position_lt_iff hj' hstop,
    h.position_offset hj, Nat.not_lt]

theorem code_pairwise : d.code.Pairwise fun p q => p.1 < q.1 := by
  have hincreasing := h.increasing
  rw [boundaries, ClassSynth.boundaries, List.pairwise_append] at hincreasing
  exact List.pairwise_map.mp hincreasing.1

/-- Instructions that are laid out one after another keep to their order. -/
theorem mapIdx_eq_relocate (off g : Nat → Nat) :
    (d.code.map fun p => p.2.mapLabels (g ∘ d.position)).mapIdx
        (fun j i => (off (g j), i.mapLabels off))
      = relocate (off ∘ g ∘ d.position) d.code := by
  refine List.ext_getElem (by simp [relocate]) fun j hj _ => ?_
  have hj : j < d.code.length := by simpa using hj
  simp [relocate, h.position_fst hj]

end Closed

end CodeReading

/-! ## Written code -/

open Instruction (offsetIn)

namespace IndexedBody

variable {withFrames : Bool} {body : IndexedBody}

@[simp] theorem boundaries_reading :
    (body.reading withFrames).boundaries = Instruction.layout body.code :=
  Instruction.boundaries_placed body.code

theorem toNat_offsetIn {is : List Instruction} {p : Nat}
    (hsize : offsetIn is is.length ≤ 65535) (hp : p ≤ is.length) :
    (offsetIn is p).toUInt16.toNat = offsetIn is p := by
  have hle : offsetIn is p ≤ offsetIn is is.length := by
    rcases Nat.lt_or_eq_of_le hp with hlt | rfl
    · exact Nat.le_of_lt (Instruction.offsetIn_lt hlt (Nat.le_refl _))
    · exact Nat.le_refl _
  rw [Nat.toUInt16_eq, UInt16.toNat_ofNat']
  exact Nat.mod_eq_of_lt (by omega)

/-- The end of a written range. -/
theorem stop_entryIn {is : List Instruction} {r : IndexedRange}
    (hsize : offsetIn is is.length ≤ 65535) (hle : r.start ≤ r.stop) (hstop : r.stop ≤ is.length) :
    (r.entryIn is).stop = offsetIn is r.stop := by
  have hstartNat := toNat_offsetIn hsize (Nat.le_trans hle hstop)
  have hstopNat := toNat_offsetIn hsize hstop
  have hlt : offsetIn is r.start ≤ offsetIn is r.stop := by
    rcases Nat.lt_or_eq_of_le hle with hlt | heq
    · exact Nat.le_of_lt (Instruction.offsetIn_lt hlt hstop)
    · rw [heq]
  have hsub : (offsetIn is r.start).toUInt16 ≤ (offsetIn is r.stop).toUInt16 := by
    rw [UInt16.le_iff_toNat_le, hstartNat, hstopNat]
    exact hlt
  rw [VariableEntry.stop, IndexedRange.entryIn, UInt16.toNat_sub_of_le _ _ hsub, hstartNat,
    hstopNat]
  omega

@[simp] theorem offset_reading (p : Nat) :
    (body.reading withFrames).offset p = offsetIn body.code p := by
  rw [CodeReading.offset, boundaries_reading, offsetIn]

end IndexedBody

/-- The images of positions increase and stay inside the new code. -/
structure Images (is : List Instruction) (length : Nat) (f : Nat → Nat) : Prop where
  increasing : ∀ i j, i < j → j ≤ length → f i < f j
  inside : f length ≤ is.length

namespace Images

variable {is : List Instruction} {length : Nat} {f : Nat → Nat} (h : Images is length f)
include h

theorem le {i j : Nat} (hij : i ≤ j) (hj : j ≤ length) : f i ≤ f j := by
  rcases Nat.lt_or_eq_of_le hij with hlt | rfl
  · exact Nat.le_of_lt (h.increasing i j hlt hj)
  · exact Nat.le_refl _

theorem le_length {i : Nat} (hi : i ≤ length) : f i ≤ is.length :=
  Nat.le_trans (h.le hi (Nat.le_refl _)) h.inside

theorem self_le {i : Nat} (hi : i ≤ length) : i ≤ f i := by
  induction i with
  | zero => exact Nat.zero_le _
  | succ i ih =>
    exact Nat.lt_of_le_of_lt (ih (by omega)) (h.increasing i (i + 1) (Nat.lt_succ_self i) hi)

/-- A range covers the instructions that stand for an old one exactly when it covered that one. -/
theorem covers_iff {d : CodeReading} (hd : d.Closed) (hlength : length = d.code.length)
    {start stop i j : Nat} (hstart : start ∈ d.boundaries) (hstop : stop ∈ d.boundaries)
    (hi : i < length) (hfirst : f i ≤ j) (hlast : j < f (i + 1)) :
    Covers (offsetIn is (f (d.position start))) (offsetIn is (f (d.position stop))) (offsetIn is j)
      ↔ Covers start stop (d.offset i) := by
  subst hlength
  have hj : j ≤ is.length := Nat.le_trans (Nat.le_of_lt hlast) (h.le_length hi)
  have hstartLe := CodeReading.position_le hstart
  have hstopLe := CodeReading.position_le hstop
  rw [hd.covers_iff hstart hstop (Nat.le_of_lt hi), Covers, ← Nat.not_lt,
    Instruction.offsetIn_lt_iff hj (h.le_length hstartLe),
    Instruction.offsetIn_lt_iff hj (h.le_length hstopLe)]
  constructor
  · rintro ⟨hlow, hhigh⟩
    constructor
    · by_contra hnot
      have hle : f (i + 1) ≤ f (d.position start) := h.le (by omega) hstartLe
      omega
    · by_contra hnot
      have hle := h.le (Nat.le_of_not_lt hnot) (Nat.le_of_lt hi)
      omega
  · rintro ⟨hlow, hhigh⟩
    have hlow' := h.le hlow (Nat.le_of_lt hi)
    have hhigh' : f (i + 1) ≤ f (d.position stop) := h.le hhigh hstopLe
    omega

end Images

end ClassSynth
