import ClassSynth.Proofs.Instruction.Codec

/-!
# Moving labels

Replacing labels composes, depends only on the labels that stand in the operand, and changes neither
the size of an instruction nor whether it can be written. A replacement that may fail, and did not,
is a replacement.
-/

namespace ClassSynth

namespace Operand

variable {f g : Label → Label}

@[simp] theorem mapLabels_mapLabels (o : Operand) :
    (o.mapLabels f).mapLabels g = o.mapLabels (g ∘ f) := by
  cases o <;> simp [mapLabels, Function.comp_def]

@[simp] theorem labels_mapLabels (o : Operand) : (o.mapLabels f).labels = o.labels.map f := by
  cases o <;> simp [mapLabels, labels]

@[simp] theorem shape_mapLabels (o : Operand) : (o.mapLabels f).shape = o.shape := by
  cases o <;> rfl

theorem mapLabels_congr {o : Operand} (h : ∀ l ∈ o.labels, f l = g l) :
    o.mapLabels f = o.mapLabels g := by
  cases o with
  | branch target => simp only [mapLabels, h target (by simp [labels])]
  | wideBranch target => simp only [mapLabels, h target (by simp [labels])]
  | tableSwitch fallback low targets =>
    have htargets : targets.map f = targets.map g :=
      List.map_congr_left fun l hl => h l (by simp [labels, hl])
    simp only [mapLabels, h fallback (by simp [labels]), htargets]
  | lookupSwitch fallback cases =>
    have hcases : (cases.map fun c => (c.1, f c.2)) = cases.map fun c => (c.1, g c.2) := by
      refine List.map_congr_left fun c hc => ?_
      have htarget : c.2 ∈ (lookupSwitch fallback cases).labels :=
        List.mem_cons_of_mem _ (List.mem_map_of_mem (f := Prod.snd) hc)
      rw [h c.2 htarget]
    rw [mapLabels, mapLabels, h fallback (by simp [labels])]
    exact congrArg (lookupSwitch (g fallback)) hcases
  | _ => rfl

theorem mapLabels_of_fixed {o : Operand} (h : ∀ l ∈ o.labels, f l = l) : o.mapLabels f = o := by
  have hid : o.mapLabels id = o := by cases o <;> simp [mapLabels]
  exact (mapLabels_congr (g := id) h).trans hid

theorem Narrow.mapLabels {o : Operand} (h : o.Narrow) : (o.mapLabels f).Narrow := by
  cases o with
  | tableSwitch fallback low targets => simpa [Operand.mapLabels, Narrow] using h
  | lookupSwitch fallback cases => simpa [Operand.mapLabels, Narrow] using h
  | _ => exact h

variable {ε : Type}

/-- A replacement of labels that succeeds. -/
theorem mapLabelsM_eq_ok {step : Label → Except ε Label} {o o' : Operand}
    (hstep : ∀ l m, step l = .ok m → m = f l) (h : o.mapLabelsM step = .ok o') :
    o' = o.mapLabels f ∧ ∀ l ∈ o.labels, step l = .ok (f l) := by
  cases o with
  | branch target =>
    simp only [mapLabelsM, Checked.bind_eq_ok, Checked.pure_eq_ok] at h
    obtain ⟨m, hm, rfl⟩ := h
    obtain rfl := hstep _ _ hm
    exact ⟨rfl, by simpa [labels] using hm⟩
  | wideBranch target =>
    simp only [mapLabelsM, Checked.bind_eq_ok, Checked.pure_eq_ok] at h
    obtain ⟨m, hm, rfl⟩ := h
    obtain rfl := hstep _ _ hm
    exact ⟨rfl, by simpa [labels] using hm⟩
  | tableSwitch fallback low targets =>
    simp only [mapLabelsM, Checked.bind_eq_ok, Checked.pure_eq_ok] at h
    obtain ⟨m, hm, ms, hms, rfl⟩ := h
    obtain rfl := hstep _ _ hm
    obtain ⟨rfl, htargets⟩ := Checked.mapM_eq_map (fun l _ => hstep l) hms
    exact ⟨rfl, by simpa [labels] using ⟨hm, htargets⟩⟩
  | lookupSwitch fallback cases =>
    simp only [mapLabelsM, Checked.bind_eq_ok, Checked.pure_eq_ok] at h
    obtain ⟨m, hm, ms, hms, rfl⟩ := h
    obtain rfl := hstep _ _ hm
    obtain ⟨rfl, hcases⟩ := Checked.mapM_eq_map (g := fun c => (c.1, f c.2)) (fun c _ d hd => by
      simp only [Checked.bind_eq_ok, Checked.pure_eq_ok] at hd
      obtain ⟨t, ht, rfl⟩ := hd
      rw [hstep _ _ ht]) hms
    refine ⟨rfl, fun l hl => ?_⟩
    rcases List.mem_cons.mp hl with rfl | hl
    · exact hm
    · obtain ⟨c, hc, rfl⟩ := List.mem_map.mp hl
      have hcase := hcases c hc
      simp only [Checked.bind_eq_ok, Checked.pure_eq_ok] at hcase
      obtain ⟨t, ht, htc⟩ := hcase
      rw [ht, ← (Prod.mk.inj htc).2]
  | _ =>
    obtain rfl := Except.ok.inj h
    exact ⟨rfl, by simp [labels]⟩

/-- A replacement of labels whose results are known. -/
theorem mapLabelsM_ok {step : Label → Except ε Label} {o : Operand}
    (h : ∀ l ∈ o.labels, step l = .ok (f l)) : o.mapLabelsM step = .ok (o.mapLabels f) := by
  cases o with
  | branch target =>
    rw [mapLabelsM, h target List.mem_cons_self]
    rfl
  | wideBranch target =>
    rw [mapLabelsM, h target List.mem_cons_self]
    rfl
  | tableSwitch fallback low targets =>
    rw [mapLabelsM, h fallback List.mem_cons_self,
      Checked.mapM_ok fun l hl => h l (List.mem_cons_of_mem _ hl)]
    rfl
  | lookupSwitch fallback cases =>
    have hcase : ∀ c ∈ cases, step c.2 = .ok (f c.2) := fun c hc =>
      h c.2 (List.mem_cons_of_mem _ (List.mem_map_of_mem (f := Prod.snd) hc))
    rw [mapLabelsM, h fallback List.mem_cons_self, Checked.mapM_ok (g := fun c => (c.1, f c.2))]
    · rfl
    · intro c hc
      simp only [hcase c hc]
      rfl
  | _ => rfl

end Operand

namespace Instruction

variable {f g : Label → Label}

@[simp] theorem mapLabels_mapLabels (i : Instruction) :
    (i.mapLabels f).mapLabels g = i.mapLabels (g ∘ f) := by
  simp [mapLabels]

@[simp] theorem labels_mapLabels (i : Instruction) : (i.mapLabels f).labels = i.labels.map f :=
  i.operand.labels_mapLabels

@[simp] theorem opcode_mapLabels (i : Instruction) : (i.mapLabels f).opcode = i.opcode := rfl

theorem mapLabels_congr {i : Instruction} (h : ∀ l ∈ i.labels, f l = g l) :
    i.mapLabels f = i.mapLabels g := by
  rw [mapLabels, mapLabels, Operand.mapLabels_congr h]

theorem mapLabels_of_fixed {i : Instruction} (h : ∀ l ∈ i.labels, f l = l) :
    i.mapLabels f = i := by
  rw [mapLabels, Operand.mapLabels_of_fixed h]

@[simp] theorem sizeAt_mapLabels (pc : Nat) (i : Instruction) :
    (i.mapLabels f).sizeAt pc = i.sizeAt pc := by
  obtain ⟨opcode, o⟩ := i
  cases o <;> simp [mapLabels, Operand.mapLabels, sizeAt]

theorem Fits.mapLabels {i : Instruction} (h : i.Fits) : (i.mapLabels f).Fits :=
  ⟨by simpa [Instruction.mapLabels] using h.shape, h.narrow.mapLabels⟩

/-- A replacement of labels that succeeds. -/
theorem mapLabelsM_eq_ok {ε : Type} {step : Label → Except ε Label} {i j : Instruction}
    (hstep : ∀ l m, step l = .ok m → m = f l) (h : i.mapLabelsM step = .ok j) :
    j = i.mapLabels f ∧ ∀ l ∈ i.labels, step l = .ok (f l) := by
  simp only [mapLabelsM, Checked.bind_eq_ok, Checked.pure_eq_ok] at h
  obtain ⟨o, ho, rfl⟩ := h
  obtain ⟨rfl, hlabels⟩ := Operand.mapLabelsM_eq_ok hstep ho
  exact ⟨rfl, hlabels⟩

/-- A replacement of labels whose results are known. -/
theorem mapLabelsM_ok {ε : Type} {step : Label → Except ε Label} {i : Instruction}
    (h : ∀ l ∈ i.labels, step l = .ok (f l)) : i.mapLabelsM step = .ok (i.mapLabels f) := by
  rw [mapLabelsM, Operand.mapLabelsM_ok h]
  rfl

end Instruction

end ClassSynth
