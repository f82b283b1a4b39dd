import ClassSynth.Output.Results
import ClassSynth.Proofs.Checked
import Mathlib.Data.List.Nodup
import Mathlib.Data.List.TakeWhile

/-!
# Results by name

A result stands for the class of its qualified name: the parts of the name give the name again,
unless the name starts with a dot (`ClassResult.qualifiedName_of_ofClass`). So `Results.put` keeps
one result for each name, the last one (`Results.Distinct.put`).
-/

namespace ClassSynth

/-! ## Names -/

/-- The parts around the last dot, with the dot between them. -/
theorem beforeLast_append_afterLast {name before : String}
    (h : beforeLast? (· == '.') name = some before) :
    before ++ "." ++ afterLast (· == '.') name = name := by
  unfold beforeLast? at h
  split at h
  · next c rest hdrop =>
    obtain rfl := Option.some.inj h
    have hc : c = '.' := by
      have hhead := List.head?_dropWhile_not (fun c : Char => !c == '.') name.toList.reverse
      simpa [hdrop] using hhead
    have hsplit := List.takeWhile_append_dropWhile (p := fun c : Char => !c == '.')
      (l := name.toList.reverse)
    rw [hdrop, hc] at hsplit
    have hname := congrArg List.reverse hsplit
    apply String.toList_injective
    simpa [afterLast] using hname
  · cases h

theorem afterLast_eq_of_no_dot {name : String} (h : beforeLast? (· == '.') name = none) :
    afterLast (· == '.') name = name := by
  unfold beforeLast? at h
  split at h
  · cases h
  · next hdrop =>
    have hsplit := List.takeWhile_append_dropWhile (p := fun c : Char => !c == '.')
      (l := name.toList.reverse)
    rw [hdrop, List.append_nil] at hsplit
    apply String.toList_injective
    simp [afterLast, hsplit]

/-- The part after the last separator is a part of the text without separators. -/
theorem of_mem_afterLast {sep : Char → Bool} {name : String} {c : Char}
    (h : c ∈ (afterLast sep name).toList) : sep c = false ∧ c ∈ name.toList := by
  rw [afterLast, String.toList_ofList, List.mem_reverse] at h
  have hsep := List.mem_takeWhile_imp h
  exact ⟨by simpa using hsep, List.mem_reverse.mp ((List.takeWhile_prefix _).subset h)⟩

namespace ClassResult

variable {r s : ClassResult}

/-- The parts of the result are those of its qualified name. -/
def IsNamed (r : ClassResult) : Prop :=
  Draft.splitName r.qualifiedName = .ok (r.package, r.simpleName)

theorem qualifiedName_of_splitName {name package simpleName : String} {bytes : Bytes}
    (h : Draft.splitName name = .ok (package, simpleName)) (hdot : name.toList.head? ≠ some '.') :
    qualifiedName { package, simpleName, bytes } = name := by
  unfold Draft.splitName at h
  split_ifs at h
  obtain ⟨rfl, rfl⟩ := Prod.mk.inj (Except.ok.inj h)
  unfold qualifiedName
  cases hbefore : beforeLast? (· == '.') name with
  | none => simpa using afterLast_eq_of_no_dot hbefore
  | some before =>
    have hname := beforeLast_append_afterLast hbefore
    have hpackage : before ≠ "" := by
      rintro rfl
      rw [← hname] at hdot
      simp at hdot
    simp [hpackage, hname]

/-- The result for a class has the parts of its name, and its bytes. -/
theorem splitName_of_ofClass {name : String} {bytes : Except Error Bytes}
    (h : ofClass name bytes = .ok r) :
    Draft.splitName name = .ok (r.package, r.simpleName) ∧ bytes = .ok r.bytes := by
  obtain ⟨draft, hdraft, h⟩ := Checked.bind_eq_ok.mp h
  obtain ⟨⟨package, simpleName⟩, hsplit, hdraft⟩ := Checked.bind_eq_ok.mp hdraft
  obtain rfl := Except.ok.inj hdraft
  obtain ⟨content, hcontent, h⟩ := Checked.bind_eq_ok.mp h
  obtain rfl := Except.ok.inj h
  exact ⟨hsplit, hcontent⟩

theorem of_ofClass {name : String} {bytes : Except Error Bytes} (h : ofClass name bytes = .ok r)
    (hdot : name.toList.head? ≠ some '.') :
    r.qualifiedName = name ∧ r.IsNamed ∧ bytes = .ok r.bytes := by
  obtain ⟨hsplit, hbytes⟩ := splitName_of_ofClass h
  have hname : r.qualifiedName = name := qualifiedName_of_splitName hsplit hdot
  exact ⟨hname, (congrArg Draft.splitName hname).trans hsplit, hbytes⟩

/-- Versions of one class are the results of one name. -/
theorem isSameClass_iff (hr : r.IsNamed) (hs : s.IsNamed) :
    r.isSameClass s = true ↔ r.qualifiedName = s.qualifiedName := by
  constructor
  · intro h
    simp only [isSameClass, Bool.and_eq_true, beq_iff_eq] at h
    simp [qualifiedName, h.1, h.2]
  · intro h
    obtain ⟨hpackage, hsimple⟩ :=
      Prod.mk.inj (Except.ok.inj (hr.symm.trans ((congrArg Draft.splitName h).trans hs)))
    simp [isSameClass, hpackage, hsimple]

end ClassResult

/-! ## Results -/

namespace Results

variable {l : Results} {r x : ClassResult}

/-- One result for each name. -/
structure Distinct (l : Results) : Prop where
  named : ∀ r ∈ l, r.IsNamed
  nodup : (l.map ClassResult.qualifiedName).Nodup

theorem Distinct.tail (h : Distinct (r :: l)) : Distinct l :=
  ⟨fun x hx => h.named x (List.mem_cons_of_mem _ hx), (List.nodup_cons.mp h.nodup).2⟩

/-- What a new version leaves are the results of other names. -/
theorem Distinct.of_mem_put (h : Distinct l) (hr : r.IsNamed) (hx : x ∈ put r l) :
    x = r ∨ x ∈ l ∧ x.qualifiedName ≠ r.qualifiedName := by
  induction l with
  | nil => exact .inl (List.mem_singleton.mp hx)
  | cons old rest ih =>
    have hsame := ClassResult.isSameClass_iff (h.named old List.mem_cons_self) hr
    unfold put at hx
    split_ifs at hx with hold
    · obtain rfl | hx := List.mem_cons.mp hx
      · exact .inl rfl
      · refine .inr ⟨List.mem_cons_of_mem _ hx, fun hname => ?_⟩
        refine (List.nodup_cons.mp h.nodup).1 ?_
        rw [hsame.mp hold, ← hname]
        exact List.mem_map_of_mem hx
    · obtain rfl | hx := List.mem_cons.mp hx
      · exact .inr ⟨List.mem_cons_self, fun hname => hold (hsame.mpr hname)⟩
      · exact (ih h.tail hx).imp_right fun ⟨hmem, hname⟩ => ⟨List.mem_cons_of_mem _ hmem, hname⟩

theorem Distinct.put (h : Distinct l) (hr : r.IsNamed) : Distinct (l.put r) := by
  refine ⟨fun x hx => ?_, ?_⟩
  · obtain rfl | ⟨hx, -⟩ := h.of_mem_put hr hx
    · exact hr
    · exact h.named x hx
  induction l with
  | nil => exact List.nodup_singleton _
  | cons old rest ih =>
    have hsame := ClassResult.isSameClass_iff (h.named old List.mem_cons_self) hr
    obtain ⟨hnew, hrest⟩ := List.nodup_cons.mp h.nodup
    unfold Results.put
    split_ifs with hold
    · exact List.nodup_cons.mpr ⟨hsame.mp hold ▸ hnew, hrest⟩
    · refine List.nodup_cons.mpr ⟨fun hmem => ?_, ih h.tail⟩
      obtain ⟨x, hx, hname⟩ := List.mem_map.mp hmem
      obtain rfl | ⟨hx, -⟩ := h.tail.of_mem_put hr hx
      · exact hold (hsame.mpr hname.symm)
      · exact hnew (hname ▸ List.mem_map_of_mem hx)

end Results

end ClassSynth
