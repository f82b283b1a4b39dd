import ClassSynth.Patch.Indexed
import ClassSynth.Proofs.Instruction.Labels

/-!
# Offsets of instructions

The layout of a list of instructions is strictly increasing and ends at the length of the code.
Decoding written code gives back the layout (`decode_encode`); decoding any code gives instructions
that can be written again, at strictly increasing offsets (`fits_of_decode`, `boundaries_pairwise`).
-/

namespace ClassSynth.Instruction

/-! ## Layouts -/

theorem sizeAt_pos (pc : Nat) (i : Instruction) : 0 < i.sizeAt pc := by
  unfold sizeAt
  split <;> first | omega | (split <;> omega)

@[simp] theorem length_layoutFrom (pc : Nat) (is : List Instruction) :
    (layoutFrom pc is).length = is.length + 1 := by
  induction is generalizing pc with
  | nil => rfl
  | cons i is ih => simp [layoutFrom, ih]

@[simp] theorem length_layout (is : List Instruction) : (layout is).length = is.length + 1 :=
  length_layoutFrom 0 is

theorem le_of_mem_layoutFrom {pc p : Nat} {is : List Instruction} (h : p ∈ layoutFrom pc is) :
    pc ≤ p := by
  induction is generalizing pc with
  | nil => exact Nat.le_of_eq (List.mem_singleton.mp h).symm
  | cons i is ih =>
    rcases List.mem_cons.mp h with rfl | h
    · exact Nat.le_refl _
    · exact Nat.le_trans (Nat.le_add_right _ _) (ih h)

theorem layoutFrom_pairwise (pc : Nat) (is : List Instruction) :
    (layoutFrom pc is).Pairwise (· < ·) := by
  induction is generalizing pc with
  | nil => exact List.pairwise_singleton _ _
  | cons i is ih =>
    refine List.pairwise_cons.mpr ⟨fun p hp => ?_, ih _⟩
    exact Nat.lt_of_lt_of_le (Nat.lt_add_of_pos_right (sizeAt_pos pc i)) (le_of_mem_layoutFrom hp)

theorem layout_pairwise (is : List Instruction) : (layout is).Pairwise (· < ·) :=
  layoutFrom_pairwise 0 is

theorem le_getLastD_layoutFrom {pc p d : Nat} {is : List Instruction}
    (h : p ∈ layoutFrom pc is) : p ≤ (layoutFrom pc is).getLastD d := by
  induction is generalizing pc p d with
  | nil => exact Nat.le_of_eq (List.mem_singleton.mp h)
  | cons i is ih =>
    have hlast : (layoutFrom pc (i :: is)).getLastD d
        = (layoutFrom (pc + i.sizeAt pc) is).getLastD pc := List.getLastD_cons ..
    rw [hlast]
    rcases List.mem_cons.mp h with rfl | h
    · have hnext : p + i.sizeAt p ∈ layoutFrom (p + i.sizeAt p) is := by
        cases is <;> exact List.mem_cons_self
      have hle : p + i.sizeAt p ≤ (layoutFrom (p + i.sizeAt p) is).getLastD p := ih hnext
      omega
    · exact ih h

/-- The offset after the last instruction, when the first stands at `pc`. -/
def endFrom (pc : Nat) (is : List Instruction) : Nat :=
  is.foldl (fun pc i => pc + i.sizeAt pc) pc

theorem layoutFrom_append (pc : Nat) (is js : List Instruction) :
    layoutFrom pc (is ++ js) =
      (layoutFrom pc is).take is.length ++ layoutFrom (endFrom pc is) js := by
  induction is generalizing pc with
  | nil => rfl
  | cons i is ih =>
    have htail := ih (pc + i.sizeAt pc)
    simpa [layoutFrom, endFrom] using htail

@[simp] theorem layoutFrom_mapLabels (f : Label → Label) (pc : Nat) (is : List Instruction) :
    layoutFrom pc (is.map (·.mapLabels f)) = layoutFrom pc is := by
  induction is generalizing pc with
  | nil => rfl
  | cons i is ih => rw [List.map_cons, layoutFrom, sizeAt_mapLabels, ih, layoutFrom]

/-- The offset of the instruction at a position of the list, or of the end of the code. -/
def offsetIn (is : List Instruction) (l : Label) : Nat := (layout is).getD l 0

@[simp] theorem offsetIn_zero (is : List Instruction) : offsetIn is 0 = 0 := by
  cases is <;> rfl

theorem layout_getElem? {is : List Instruction} {l : Nat} (hl : l ≤ is.length) :
    (layout is)[l]? = some (offsetIn is l) := by
  have hlt : l < (layout is).length := by
    rw [length_layout]
    omega
  rw [offsetIn, List.getD_eq_getElem?_getD, List.getElem?_eq_getElem hlt, Option.getD_some]

theorem offsetIn_lt {is : List Instruction} {l m : Nat} (hlm : l < m) (hm : m ≤ is.length) :
    offsetIn is l < offsetIn is m := by
  have hpairs := layout_pairwise is
  rw [List.pairwise_iff_getElem] at hpairs
  have hl : (layout is)[l]? = some (offsetIn is l) :=
    layout_getElem? (Nat.le_trans (Nat.le_of_lt hlm) hm)
  have hm := layout_getElem? hm
  obtain ⟨hl, hl'⟩ := List.getElem?_eq_some_iff.mp hl
  obtain ⟨hm, hm'⟩ := List.getElem?_eq_some_iff.mp hm
  rw [← hl', ← hm']
  exact hpairs l m hl hm hlm

theorem offsetIn_lt_iff {is : List Instruction} {l m : Nat} (hl : l ≤ is.length)
    (hm : m ≤ is.length) : offsetIn is l < offsetIn is m ↔ l < m := by
  refine ⟨fun hlt => ?_, fun hlm => offsetIn_lt hlm hm⟩
  by_contra hle
  rcases Nat.lt_or_eq_of_le (Nat.le_of_not_lt hle) with hml | rfl
  · exact Nat.lt_asymm hlt (offsetIn_lt hml hl)
  · exact Nat.lt_irrefl _ hlt

theorem le_offsetIn {is : List Instruction} {l : Nat} (hl : l ≤ is.length) : l ≤ offsetIn is l := by
  induction l with
  | zero => exact Nat.zero_le _
  | succ l ih => exact Nat.lt_of_le_of_lt (ih (by omega)) (offsetIn_lt (Nat.lt_succ_self l) hl)

@[simp] theorem offsetIn_mapLabels (f : Label → Label) (is : List Instruction) :
    offsetIn (is.map (·.mapLabels f)) = offsetIn is := by
  funext l
  rw [offsetIn, layout, layoutFrom_mapLabels, offsetIn, layout]

theorem offsetIn_length_append (is js : List Instruction) (l : Nat) :
    offsetIn (is ++ js) (is.length + l) = (layoutFrom (endFrom 0 is) js).getD l 0 := by
  have hlen : ((layoutFrom 0 is).take is.length).length = is.length := by simp
  rw [offsetIn, layout, layoutFrom_append, List.getD_eq_getElem?_getD,
    List.getElem?_append_right (by omega), hlen, Nat.add_sub_cancel_left,
    ← List.getD_eq_getElem?_getD]

theorem offsetIn_length (is : List Instruction) : offsetIn is is.length = endFrom 0 is := by
  have hend := offsetIn_length_append is [] 0
  rwa [List.append_nil] at hend

theorem offsetIn_append {is js : List Instruction} {l : Nat} (hl : l ≤ is.length) :
    offsetIn (is ++ js) l = offsetIn is l := by
  rcases Nat.lt_or_eq_of_le hl with hl | rfl
  · rw [offsetIn, offsetIn, layout, layoutFrom_append, List.getD_eq_getElem?_getD,
      List.getElem?_append_left (by simpa using hl), List.getElem?_take_of_lt hl,
      ← List.getD_eq_getElem?_getD, layout]
  · have hend := offsetIn_length_append is js 0
    rw [Nat.add_zero] at hend
    rw [hend, offsetIn_length]
    cases js <;> rfl

/-! ## Decoding written code -/

/-- The instructions from `pc` on, with offsets for labels. -/
def placedFrom (target : Label → Label) (pc : Nat) (is : List Instruction) :
    List (Nat × Instruction) :=
  (is.zip (layoutFrom pc is)).map fun (i, pc) => (pc, i.mapLabels target)

/-- The instructions at their offsets, with offsets for labels. -/
def placed (is : List Instruction) : List (Nat × Instruction) :=
  placedFrom (offsetIn is) 0 is

theorem placed_eq_mapIdx (is : List Instruction) :
    placed is = is.mapIdx fun j i => (offsetIn is j, i.mapLabels (offsetIn is)) := by
  refine List.ext_getElem? fun j => ?_
  rw [List.getElem?_mapIdx, placed, placedFrom, List.getElem?_map]
  rcases Nat.lt_or_ge j is.length with hj | hj
  · have hpc : (layoutFrom 0 is)[j]? = some (offsetIn is j) := layout_getElem? (Nat.le_of_lt hj)
    have hzip : (is.zip (layoutFrom 0 is))[j]? = some (is[j], offsetIn is j) :=
      List.getElem?_zip_eq_some.mpr ⟨List.getElem?_eq_getElem hj, hpc⟩
    rw [hzip, List.getElem?_eq_getElem hj]
    rfl
  · have hzip : (is.zip (layoutFrom 0 is))[j]? = none :=
      List.getElem?_eq_none (by simp only [List.length_zip]; omega)
    rw [hzip, List.getElem?_eq_none hj]
    rfl

theorem decodeAux_parts {pcs : Array Nat} (hpcs : Offsets16 pcs) {is : List Instruction}
    (hfits : ∀ i ∈ is, i.Fits) {pc : Nat} (hpc : ∀ p ∈ layoutFrom pc is, p ≤ 65535)
    {parts : List Bytes}
    (h : (is.zip (layoutFrom pc is)).mapM (fun (i, pc) => bytesAt pcs pc i) = .ok parts)
    {fuel : Nat} (hfuel : parts.flatten.length ≤ fuel) (done : List (Nat × Instruction)) :
    decodeAux fuel done ⟨pc, parts.flatten⟩
      = .ok (done.reverse ++ placedFrom (targetAt pcs) pc is) := by
  induction is generalizing pc parts fuel done with
  | nil =>
    obtain rfl : [] = parts := by simpa only [List.zip_nil_left, List.mapM_nil,
      Checked.pure_eq_ok] using h
    cases fuel <;> simp [decodeAux, placedFrom]
  | cons i is ih =>
    simp only [layoutFrom, List.zip_cons_cons, List.mapM_cons, Checked.bind_eq_ok,
      Checked.pure_eq_ok] at h
    obtain ⟨bs, hbs, parts, hparts, rfl⟩ := h
    have hpc0 : pc ≤ 65535 := hpc pc List.mem_cons_self
    have hsize := length_bytesAt hbs
    have hpos := sizeAt_pos pc i
    have hread := readsAt_bytesAt hpcs hpc0 (hfits i List.mem_cons_self) hbs parts.flatten
    rw [List.flatten_cons, List.length_append] at hfuel
    obtain ⟨fuel, rfl⟩ : ∃ n, fuel = n + 1 := ⟨fuel - 1, by omega⟩
    have hne : (bs ++ parts.flatten).isEmpty = false := by
      cases bs with
      | nil => simp at hsize; omega
      | cons b bs => rfl
    rw [List.flatten_cons, decodeAux, if_neg (by simp [hne]), hread, hsize]
    have hfuel' : parts.flatten.length ≤ fuel := by omega
    refine (ih (fun j hj => hfits j (List.mem_cons_of_mem _ hj))
      (fun p hp => hpc p (List.mem_cons_of_mem _ hp)) hparts hfuel' _).trans ?_
    simp [placedFrom, layoutFrom]

theorem offsets16_layout {is : List Instruction} (h : (layout is).getLastD 0 ≤ 65535) :
    Offsets16 (layout is).toArray := by
  intro l target hget
  rw [List.getElem?_toArray] at hget
  exact Nat.le_trans (le_getLastD_layoutFrom (List.mem_of_getElem? hget)) h

theorem targetAt_layout (is : List Instruction) : targetAt (layout is).toArray = offsetIn is := by
  funext l
  rw [targetAt, offsetIn, List.getElem?_toArray, List.getD_eq_getElem?_getD]

/-- An operand whose labels are within reach can be written. -/
theorem exists_operandBytes {pcs : Array Nat} {pc : Nat} {operand : Operand}
    (h : ∀ l ∈ operand.labels, ∃ target, pcs[l]? = some target ∧ pc ≤ target + 32768 ∧
      target ≤ pc + 32767) : ∃ bytes, operandBytes pcs pc operand = .ok bytes := by
  have hwide : ∀ l ∈ operand.labels, ∃ bytes, wideOffset pcs pc l = .ok bytes := by
    intro l hl
    obtain ⟨target, htarget, -⟩ := h l hl
    exact ⟨_, by rw [wideOffset, offsetOf, htarget]; rfl⟩
  cases operand
  case branch l =>
    obtain ⟨target, htarget, hlow, hhigh⟩ := h l List.mem_cons_self
    have hrange : ¬ ((target : Int) - pc < -32768 ∨ (target : Int) - pc > 32767) := by omega
    refine ⟨Bytes.ofI16 (Int16.ofInt ((target : Int) - pc)), ?_⟩
    rw [operandBytes, offsetOf, htarget]
    exact if_neg hrange
  case wideBranch l => exact hwide l List.mem_cons_self
  case tableSwitch fallback low targets =>
    obtain ⟨first, hfirst⟩ := hwide fallback List.mem_cons_self
    obtain ⟨rest, hrest⟩ :=
      Checked.exists_mapM fun l hl => hwide l (List.mem_cons_of_mem fallback hl)
    exact ⟨_, by rw [operandBytes, hfirst, hrest]; rfl⟩
  case lookupSwitch fallback cases =>
    obtain ⟨first, hfirst⟩ := hwide fallback List.mem_cons_self
    obtain ⟨rest, hrest⟩ : ∃ rest, cases.mapM (fun entry => do
        return Bytes.ofI32 entry.1 ++ (← wideOffset pcs pc entry.2)) = Except.ok rest := by
      refine Checked.exists_mapM fun entry hentry => ?_
      obtain ⟨bytes, hbytes⟩ := hwide entry.2
        (List.mem_cons_of_mem fallback (List.mem_map_of_mem hentry))
      exact ⟨Bytes.ofI32 entry.1 ++ bytes, by simp only [hbytes]; rfl⟩
    rw [operandBytes]
    exact ⟨_, Checked.bind_eq_ok.mpr
      ⟨first, hfirst, Checked.bind_eq_ok.mpr ⟨rest, hrest, rfl⟩⟩⟩
  all_goals exact ⟨_, rfl⟩

/-- Instructions whose labels are positions within reach can be written. -/
theorem exists_encode {is : List Instruction} (hsize : endFrom 0 is ≤ 65535)
    (hlabels : ∀ i ∈ is, ∀ l ∈ i.labels, l ≤ is.length)
    (hreach : endFrom 0 is ≤ 32767 ∨ ∀ i ∈ is, i.labels = []) :
    ∃ bytes, encode is = .ok bytes := by
  have hlast : (layout is).getLastD 0 = endFrom 0 is := by
    rw [← offsetIn_length, offsetIn, List.getLastD_eq_getLast?, List.getLast?_eq_getElem?,
      length_layout, Nat.add_sub_cancel, ← List.getD_eq_getElem?_getD]
  have hle : ∀ pc ∈ layout is, pc ≤ endFrom 0 is := fun pc hpc =>
    hlast ▸ le_getLastD_layoutFrom hpc
  obtain ⟨parts, hparts⟩ : ∃ parts, (is.zip (layout is)).mapM
      (fun (i, pc) => bytesAt (layout is).toArray pc i) = .ok parts := by
    refine Checked.exists_mapM fun (i, pc) hentry => ?_
    obtain ⟨hi, hpc⟩ := List.of_mem_zip hentry
    have hwithin : ∀ l ∈ i.operand.labels, ∃ target, (layout is).toArray[l]? = some target ∧
        pc ≤ target + 32768 ∧ target ≤ pc + 32767 := by
      intro l hl
      rcases hreach with hreach | hnone
      · have htarget := layout_getElem? (hlabels i hi l hl)
        have hpc := hle _ hpc
        have htop := hle _ (List.mem_of_getElem? htarget)
        exact ⟨_, by rw [List.getElem?_toArray, htarget], by omega, by omega⟩
      · exact absurd hl (by rw [← Instruction.labels, hnone i hi]; exact List.not_mem_nil)
    obtain ⟨bytes, hbytes⟩ := exists_operandBytes hwithin
    exact ⟨_, Checked.bind_eq_ok.mpr ⟨bytes, hbytes, rfl⟩⟩
  refine ⟨parts.flatten, ?_⟩
  unfold encode
  simp only [hlast]
  rw [if_neg (Nat.not_lt.mpr hsize), Checked.bind_eq_ok]
  exact ⟨parts, hparts, rfl⟩

/-- Written code is read as the instructions at their offsets. -/
theorem decode_encode {is : List Instruction} (hfits : ∀ i ∈ is, i.Fits) {bytes : Bytes}
    (h : encode is = .ok bytes) : decode bytes = .ok (placed is) := by
  unfold encode at h
  simp only at h
  split_ifs at h with hsize
  simp only [Checked.bind_eq_ok, Checked.pure_eq_ok] at h
  obtain ⟨parts, hparts, rfl⟩ := h
  have hlast : (layout is).getLastD 0 ≤ 65535 := Nat.le_of_not_lt hsize
  have hdecode := decodeAux_parts (offsets16_layout hlast) hfits
    (fun p hp => Nat.le_trans (le_getLastD_layoutFrom hp) hlast) hparts (Nat.le_refl _) []
  rw [targetAt_layout] at hdecode
  exact hdecode

/-- Offsets in written code have 16 bits. -/
theorem offsetIn_le_of_encode {is : List Instruction} {bytes : Bytes} (h : encode is = .ok bytes)
    (l : Label) : offsetIn is l ≤ 65535 := by
  unfold encode at h
  simp only at h
  split_ifs at h with hsize
  rw [offsetIn, List.getD_eq_getElem?_getD]
  cases hget : (layout is)[l]? with
  | none => exact Nat.zero_le _
  | some pc =>
    exact Nat.le_trans (le_getLastD_layoutFrom (List.mem_of_getElem? hget)) (Nat.le_of_not_lt hsize)

/-- Written code is as long as the layout says. -/
theorem length_encode {is : List Instruction} {bytes : Bytes} (h : encode is = .ok bytes) :
    bytes.length = offsetIn is is.length := by
  unfold encode at h
  simp only at h
  split_ifs at h
  simp only [Checked.bind_eq_ok, Checked.pure_eq_ok] at h
  obtain ⟨parts, hparts, rfl⟩ := h
  have hlen : ∀ (js : List Instruction) (pc : Nat) (parts : List Bytes),
      (js.zip (layoutFrom pc js)).mapM
        (fun (i, pc) => bytesAt (layout is).toArray pc i) = .ok parts →
      pc + parts.flatten.length = (layoutFrom pc js).getD js.length 0 := by
    intro js
    induction js with
    | nil =>
      intro pc parts h
      obtain rfl : [] = parts := by simpa only [List.zip_nil_left, List.mapM_nil,
        Checked.pure_eq_ok] using h
      rfl
    | cons j js ih =>
      intro pc parts h
      simp only [layoutFrom, List.zip_cons_cons, List.mapM_cons, Checked.bind_eq_ok,
        Checked.pure_eq_ok] at h
      obtain ⟨bs, hbs, rest, hrest, rfl⟩ := h
      rw [List.flatten_cons, List.length_append, length_bytesAt hbs, ← Nat.add_assoc,
        ih _ _ hrest]
      rfl
  have hsum := hlen is 0 parts hparts
  rwa [Nat.zero_add] at hsum

theorem map_fst_placedFrom (target : Label → Label) (pc : Nat) (is : List Instruction) :
    (placedFrom target pc is).map (·.1) = (layoutFrom pc is).take is.length := by
  induction is generalizing pc with
  | nil => rfl
  | cons i is ih =>
    have htail := ih (pc + i.sizeAt pc)
    simpa [placedFrom, layoutFrom] using htail

/-! ## Decoding any code -/

/-- The offsets of read instructions increase from the cursor to the end of the bytes, and the
instructions can be written again. -/
theorem decodeAux_eq_ok {fuel : Nat} {done decoded : List (Nat × Instruction)} {c : Cursor}
    (h : decodeAux fuel done c = .ok decoded) (hfuel : c.rest.length ≤ fuel) :
    ∃ tail, decoded = done.reverse ++ tail ∧ (∀ p ∈ tail, p.2.Fits) ∧
      (tail.map (·.1) ++ [c.offset + c.rest.length]).Pairwise (· < ·) ∧
      (tail.map (·.1) ++ [c.offset + c.rest.length]).head? = some c.offset := by
  induction fuel generalizing done c with
  | zero =>
    have hnil : c.rest = [] := List.eq_nil_of_length_eq_zero (Nat.le_zero.mp hfuel)
    exact ⟨[], by simpa [decodeAux] using h.symm, by simp, by simp, by simp [hnil]⟩
  | succ fuel ih =>
    rw [decodeAux] at h
    split_ifs at h with hempty
    · have hnil : c.rest = [] := List.isEmpty_iff.mp hempty
      exact ⟨[], by simpa using h.symm, by simp, by simp, by simp [hnil]⟩
    · cases hread : read c with
      | error e =>
        rw [hread] at h
        cases h
      | ok r =>
        obtain ⟨p, c'⟩ := r
        rw [hread] at h
        obtain ⟨hp, hfits, b, bytes, hrest, hoffset⟩ := of_read hread
        have hlen : c.rest.length = bytes.length + 1 + c'.rest.length := by
          rw [hrest]
          simp
          omega
        obtain ⟨tail, rfl, htail, hpairs, hhead⟩ := ih h (by omega)
        have hend : c.offset + c.rest.length = c'.offset + c'.rest.length := by omega
        refine ⟨p :: tail, by simp, List.forall_mem_cons.mpr ⟨hfits, htail⟩, ?_, by simp [hp]⟩
        rw [hend, List.map_cons, List.cons_append]
        refine List.pairwise_cons.mpr ⟨fun q hq => ?_, hpairs⟩
        -- the rest starts at the next cursor, and grows from there
        have hle : c'.offset ≤ q := by
          cases hl : tail.map (·.1) ++ [c'.offset + c'.rest.length] with
          | nil => rw [hl] at hq; cases hq
          | cons x xs =>
            rw [hl] at hq hpairs hhead
            obtain rfl : x = c'.offset := Option.some.inj hhead
            rcases List.mem_cons.mp hq with rfl | hq
            · exact Nat.le_refl _
            · exact Nat.le_of_lt ((List.pairwise_cons.mp hpairs).1 q hq)
        omega

/-- Instructions that were read can be written again. -/
theorem fits_of_decode {code : Bytes} {decoded : List (Nat × Instruction)}
    (h : decode code = .ok decoded) : ∀ p ∈ decoded, p.2.Fits := by
  obtain ⟨tail, rfl, hfits, _⟩ := decodeAux_eq_ok h (Nat.le_refl _)
  exact hfits

/-- The offsets of read instructions increase from zero to the length of the code. -/
theorem boundaries_pairwise {code : Bytes} {decoded : List (Nat × Instruction)}
    (h : decode code = .ok decoded) : (boundaries decoded code.length).Pairwise (· < ·) := by
  obtain ⟨tail, rfl, _, hpairs, _⟩ := decodeAux_eq_ok h (Nat.le_refl _)
  simpa [boundaries] using hpairs

theorem head?_boundaries {code : Bytes} {decoded : List (Nat × Instruction)}
    (h : decode code = .ok decoded) : (boundaries decoded code.length).head? = some 0 := by
  obtain ⟨tail, rfl, _, _, hhead⟩ := decodeAux_eq_ok h (Nat.le_refl _)
  simpa [boundaries] using hhead

/-- The boundaries of instructions at their offsets are the layout. -/
theorem boundaries_placed (is : List Instruction) :
    boundaries (placed is) (offsetIn is is.length) = layout is := by
  rw [boundaries, placed, map_fst_placedFrom]
  have hsplit : (layout is).take is.length ++ (layout is).drop is.length = layout is :=
    List.take_append_drop _ _
  have hdrop : (layout is).drop is.length = [offsetIn is is.length] := by
    have hlt : is.length < (layout is).length := by simp
    rw [List.drop_eq_getElem_cons hlt, List.drop_of_length_le (by simp), offsetIn,
      List.getD_eq_getElem?_getD, List.getElem?_eq_getElem hlt, Option.getD_some]
  rw [← hdrop]
  exact hsplit

/-! ## Reading single instructions

At the offset of an instruction, written code holds that instruction, and the next one stands right
behind it (`read_of_encode`).
-/

theorem getD_layoutFrom_succ {is : List Instruction} {pc k : Nat} {i : Instruction}
    (hk : is[k]? = some i) :
    (layoutFrom pc is).getD (k + 1) 0
      = (layoutFrom pc is).getD k 0 + i.sizeAt ((layoutFrom pc is).getD k 0) := by
  induction is generalizing pc k with
  | nil => cases hk
  | cons j is ih =>
    cases k with
    | zero =>
      obtain rfl : j = i := by simpa using hk
      cases is <;> simp [layoutFrom]
    | succ k =>
      have hk' : is[k]? = some i := by simpa using hk
      have htail := @ih (pc + j.sizeAt pc) k hk'
      simpa [layoutFrom] using htail

/-- The bytes of one instruction among the bytes of all. -/
theorem parts_getElem? {pcs : Array Nat} {is : List Instruction} {pc : Nat} {parts : List Bytes}
    (h : (is.zip (layoutFrom pc is)).mapM (fun (i, pc) => bytesAt pcs pc i) = .ok parts)
    {k : Nat} {i : Instruction} (hk : is[k]? = some i) :
    ∃ before bs after, parts.flatten = before ++ (bs ++ after) ∧
      pc + before.length = (layoutFrom pc is).getD k 0 ∧
      bytesAt pcs ((layoutFrom pc is).getD k 0) i = .ok bs := by
  induction is generalizing pc parts k with
  | nil => cases hk
  | cons j is ih =>
    simp only [layoutFrom, List.zip_cons_cons, List.mapM_cons, Checked.bind_eq_ok,
      Checked.pure_eq_ok] at h
    obtain ⟨first, hfirst, rest, hrest, rfl⟩ := h
    cases k with
    | zero =>
      obtain rfl : j = i := by simpa using hk
      exact ⟨[], first, rest.flatten, by simp, by simp [layoutFrom], by simpa [layoutFrom]⟩
    | succ k =>
      have hk' : is[k]? = some i := by simpa using hk
      obtain ⟨before, bs, after, hflatten, hlen, hbs⟩ := ih hrest hk'
      have hsize := length_bytesAt hfirst
      refine ⟨first ++ before, bs, after, by simp [hflatten], ?_, by simpa [layoutFrom] using hbs⟩
      rw [List.length_append, hsize, ← Nat.add_assoc, hlen]
      simp [layoutFrom]

/-- At the offset of an instruction it is read, with offsets for labels. -/
theorem read_of_encode {is : List Instruction} (hfits : ∀ i ∈ is, i.Fits) {bytes : Bytes}
    (h : encode is = .ok bytes) {k : Nat} {i : Instruction} (hk : is[k]? = some i) :
    read ⟨offsetIn is k, bytes.drop (offsetIn is k)⟩
      = .ok ((offsetIn is k, i.mapLabels (offsetIn is)),
        ⟨offsetIn is (k + 1), bytes.drop (offsetIn is (k + 1))⟩) := by
  have hpc := offsetIn_le_of_encode h k
  unfold encode at h
  simp only at h
  split_ifs at h with hsize
  simp only [Checked.bind_eq_ok, Checked.pure_eq_ok] at h
  obtain ⟨parts, hparts, rfl⟩ := h
  obtain ⟨before, bs, after, hflatten, hlen, hbs⟩ := parts_getElem? hparts hk
  have hlen : before.length = offsetIn is k := by
    rw [Nat.zero_add] at hlen
    exact hlen
  have hnext : offsetIn is (k + 1) = offsetIn is k + bs.length := by
    rw [length_bytesAt hbs]
    exact getD_layoutFrom_succ hk
  have hread := readsAt_bytesAt (offsets16_layout (Nat.le_of_not_lt hsize)) hpc
    (hfits i (List.mem_of_getElem? hk)) hbs after
  rw [targetAt_layout] at hread
  rw [hflatten, hnext, List.drop_append_of_le_length (Nat.le_of_eq hlen.symm), ← hlen,
    List.drop_length, List.nil_append, hlen, ← List.append_assoc, hread]
  have hdrop : (before ++ bs ++ after).drop (offsetIn is k + bs.length) = after := by
    rw [← hlen, ← List.length_append, List.drop_left]
  rw [hdrop]

end ClassSynth.Instruction
