import ClassSynth.Patch.Edit
import ClassSynth.Proofs.Frame.RoundTrip
import ClassSynth.Proofs.Instruction.Layout

/-!
# Offsets and positions

Turning offsets into positions and back are replacements that may fail. Where one succeeds, it is a
replacement by a function: `List.idxOf` in the boundaries, or `Instruction.offsetIn` in the new
code. Replacements compose as long as the positions of `new` instructions fit in 16 bits.
-/

namespace ClassSynth

/-! ## Frames -/

namespace VerificationType

/-- The verification type with its offset replaced. -/
def mapOffset (f : Nat → Nat) : VerificationType → VerificationType
  | uninitialized offset => uninitialized (f offset.toNat).toUInt16
  | t => t

/-- The verification type with its offset replaced, unless that fails. -/
def mapOffsetM {m : Type → Type} [Monad m] (f : Nat → m Nat) :
    VerificationType → m VerificationType
  | uninitialized offset => do return uninitialized (← f offset.toNat).toUInt16
  | t => pure t

/-- The offset in a verification type. -/
def offset? : VerificationType → Option Nat
  | uninitialized offset => some offset.toNat
  | _ => none

variable {f g : Nat → Nat} {t : VerificationType}

theorem mapOffset_congr (h : ∀ a, t.offset? = some a → f a = g a) :
    t.mapOffset f = t.mapOffset g := by
  cases t with
  | uninitialized offset => rw [mapOffset, mapOffset, h offset.toNat rfl]
  | _ => rfl

theorem mapOffset_mapOffset (h : ∀ a, t.offset? = some a → f a < 65536) :
    (t.mapOffset f).mapOffset g = t.mapOffset (g ∘ f) := by
  cases t with
  | uninitialized offset =>
    have hfit : (f offset.toNat).toUInt16.toNat = f offset.toNat := by
      rw [Nat.toUInt16_eq, UInt16.toNat_ofNat']
      exact Nat.mod_eq_of_lt (h offset.toNat rfl)
    simp only [mapOffset, hfit, Function.comp_apply]
  | _ => rfl

theorem offset?_mapOffset (h : ∀ a, t.offset? = some a → f a < 65536) :
    (t.mapOffset f).offset? = t.offset?.map f := by
  cases t with
  | uninitialized offset =>
    rw [mapOffset, offset?, offset?, Option.map_some, Nat.toUInt16_eq, UInt16.toNat_ofNat',
      Nat.mod_eq_of_lt (h offset.toNat rfl)]
  | _ => rfl

theorem mapOffsetM_eq_ok {ε : Type} {step : Nat → Except ε Nat} {u : VerificationType}
    (hstep : ∀ a b, step a = .ok b → b = f a) (h : t.mapOffsetM step = .ok u) :
    u = t.mapOffset f ∧ ∀ a, t.offset? = some a → step a = .ok (f a) := by
  cases t with
  | uninitialized offset =>
    simp only [mapOffsetM, Checked.bind_eq_ok, Checked.pure_eq_ok] at h
    obtain ⟨b, hb, rfl⟩ := h
    obtain rfl := hstep _ _ hb
    refine ⟨rfl, fun a ha => ?_⟩
    obtain rfl := Option.some.inj ha
    exact hb
  | _ =>
    obtain rfl := Except.ok.inj h
    refine ⟨rfl, fun a ha => ?_⟩
    cases ha

end VerificationType

namespace FrameState

/-- The offsets that a frame refers to, its own first. -/
def offsets (s : FrameState) : List Nat :=
  s.pc :: (s.locals ++ s.stack).filterMap VerificationType.offset?

variable {f g : Nat → Nat} {s : FrameState}

theorem mapOffsets_eq (f : Nat → Nat) (s : FrameState) :
    s.mapOffsets f = {
      pc := f s.pc
      locals := s.locals.map (·.mapOffset f)
      stack := s.stack.map (·.mapOffset f) } := by
  have hconvert : (VerificationType.mapOffsetM (m := Id) f) = fun t => pure (t.mapOffset f) := by
    funext t
    cases t <;> rfl
  have hmap : ∀ ts : List VerificationType,
      ts.mapM (VerificationType.mapOffsetM (m := Id) f) = ts.map (·.mapOffset f) := by
    intro ts
    rw [hconvert, List.mapM_pure]
    rfl
  change FrameState.mk (f s.pc) (s.locals.mapM (VerificationType.mapOffsetM (m := Id) f))
    (s.stack.mapM (VerificationType.mapOffsetM (m := Id) f)) = _
  rw [hmap, hmap]

theorem pc_mem_offsets (s : FrameState) : s.pc ∈ s.offsets :=
  List.mem_cons_self

theorem mem_offsets_of_local {t : VerificationType} (ht : t ∈ s.locals) {a : Nat}
    (ha : t.offset? = some a) : a ∈ s.offsets :=
  List.mem_cons_of_mem _ (List.mem_filterMap.mpr ⟨t, List.mem_append_left _ ht, ha⟩)

theorem mem_offsets_of_stack {t : VerificationType} (ht : t ∈ s.stack) {a : Nat}
    (ha : t.offset? = some a) : a ∈ s.offsets :=
  List.mem_cons_of_mem _ (List.mem_filterMap.mpr ⟨t, List.mem_append_right _ ht, ha⟩)

theorem mapOffsets_congr (h : ∀ a ∈ s.offsets, f a = g a) : s.mapOffsets f = s.mapOffsets g := by
  rw [mapOffsets_eq, mapOffsets_eq, h s.pc s.pc_mem_offsets]
  congr 1
  · exact List.map_congr_left fun t ht =>
      VerificationType.mapOffset_congr fun a ha => h a (mem_offsets_of_local ht ha)
  · exact List.map_congr_left fun t ht =>
      VerificationType.mapOffset_congr fun a ha => h a (mem_offsets_of_stack ht ha)

theorem mapOffsets_mapOffsets (h : ∀ a ∈ s.offsets, f a < 65536) :
    (s.mapOffsets f).mapOffsets g = s.mapOffsets (g ∘ f) := by
  simp only [mapOffsets_eq, List.map_map, Function.comp_apply]
  congr 1
  · exact List.map_congr_left fun t ht =>
      VerificationType.mapOffset_mapOffset fun a ha => h a (mem_offsets_of_local ht ha)
  · exact List.map_congr_left fun t ht =>
      VerificationType.mapOffset_mapOffset fun a ha => h a (mem_offsets_of_stack ht ha)

theorem offsets_mapOffsets (h : ∀ a ∈ s.offsets, f a < 65536) :
    (s.mapOffsets f).offsets = s.offsets.map f := by
  have hfilter : ∀ ts : List VerificationType,
      (∀ t ∈ ts, ∀ a, t.offset? = some a → f a < 65536) →
      (ts.map (·.mapOffset f)).filterMap VerificationType.offset?
        = (ts.filterMap VerificationType.offset?).map f := by
    intro ts hts
    rw [List.filterMap_map, List.map_filterMap]
    exact List.filterMap_congr fun t ht => VerificationType.offset?_mapOffset (hts t ht)
  rw [mapOffsets_eq, offsets, offsets, List.map_cons, ← List.map_append]
  congr 1
  refine hfilter _ fun t ht a ha => ?_
  rcases List.mem_append.mp ht with ht | ht
  · exact h a (mem_offsets_of_local ht ha)
  · exact h a (mem_offsets_of_stack ht ha)

variable {ε : Type} {step : Nat → Except ε Nat}

theorem mapOffsetsM_eq (step : Nat → Except ε Nat) (s : FrameState) :
    s.mapOffsetsM step = do
      let pc ← step s.pc
      let locals ← s.locals.mapM (VerificationType.mapOffsetM step)
      return { pc, locals, stack := ← s.stack.mapM (VerificationType.mapOffsetM step) } :=
  rfl

/-- A replacement of offsets that succeeds. -/
theorem mapOffsetsM_eq_ok {s' : FrameState} (hstep : ∀ a b, step a = .ok b → b = f a)
    (h : s.mapOffsetsM step = .ok s') :
    s' = s.mapOffsets f ∧ ∀ a ∈ s.offsets, step a = .ok (f a) := by
  simp only [mapOffsetsM_eq, Checked.bind_eq_ok, Checked.pure_eq_ok] at h
  obtain ⟨pc, hpc, locals, hlocals, stack, hstack, rfl⟩ := h
  obtain rfl := hstep _ _ hpc
  have hconvert : ∀ {ts us : List VerificationType},
      ts.mapM (VerificationType.mapOffsetM step) = .ok us →
      us = ts.map (·.mapOffset f) ∧ ∀ t ∈ ts, ∀ a, t.offset? = some a → step a = .ok (f a) := by
    intro ts us hts
    obtain ⟨rfl, hall⟩ := Checked.mapM_eq_map
      (fun t _ u hu => (VerificationType.mapOffsetM_eq_ok hstep hu).1) hts
    exact ⟨rfl, fun t ht => (VerificationType.mapOffsetM_eq_ok hstep (hall t ht)).2⟩
  obtain ⟨rfl, hlocalsOk⟩ := hconvert hlocals
  obtain ⟨rfl, hstackOk⟩ := hconvert hstack
  refine ⟨(mapOffsets_eq f s).symm, fun a ha => ?_⟩
  rcases List.mem_cons.mp ha with rfl | ha
  · exact hpc
  · obtain ⟨t, ht, hta⟩ := List.mem_filterMap.mp ha
    rcases List.mem_append.mp ht with ht | ht
    · exact hlocalsOk t ht a hta
    · exact hstackOk t ht a hta

end FrameState

/-! ## Boundaries -/

theorem positionOf_eq_ok {bounds : List Nat} {pc p : Nat} (h : positionOf bounds pc = .ok p) :
    p = bounds.idxOf pc ∧ pc ∈ bounds := by
  unfold positionOf at h
  cases hfind : bounds.findIdx? (· == pc) with
  | none =>
    rw [hfind] at h
    cases h
  | some i =>
    rw [hfind] at h
    obtain rfl := Except.ok.inj h
    obtain ⟨hlt, hi⟩ := List.findIdx?_eq_some_iff_findIdx_eq.mp hfind
    have hidx : bounds.idxOf pc = i := hi
    refine ⟨hidx.symm, List.idxOf_lt_length_iff.mp ?_⟩
    rwa [hidx]

theorem positionOf_of_mem {bounds : List Nat} {pc : Nat} (h : pc ∈ bounds) :
    positionOf bounds pc = .ok (bounds.idxOf pc) := by
  unfold positionOf
  have hlt : bounds.findIdx (· == pc) < bounds.length := List.idxOf_lt_length_iff.mpr h
  rw [List.findIdx?_eq_some_iff_findIdx_eq.mpr ⟨hlt, rfl⟩]
  rfl

theorem offsetAt_layout {is : List Instruction} {p : Nat} (hp : p ≤ is.length) :
    IndexedBody.offsetAt (Instruction.layout is).toArray p = .ok (Instruction.offsetIn is p) := by
  rw [IndexedBody.offsetAt, List.getElem?_toArray, Instruction.layout_getElem? hp]

theorem offsetAt_eq_ok {is : List Instruction} {p pc : Nat}
    (h : IndexedBody.offsetAt (Instruction.layout is).toArray p = .ok pc) :
    p ≤ is.length ∧ pc = Instruction.offsetIn is p := by
  by_cases hp : p ≤ is.length
  · rw [offsetAt_layout hp] at h
    exact ⟨hp, (Except.ok.inj h).symm⟩
  · rw [IndexedBody.offsetAt, List.getElem?_toArray,
      List.getElem?_eq_none (by rw [Instruction.length_layout]; omega)] at h
    cases h

end ClassSynth
