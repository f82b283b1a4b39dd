import ClassSynth.Descriptor
import Mathlib.Data.List.Basic
import Mathlib.Tactic.SplitIfs

/-!
# Descriptors that are read

A field descriptor is read as a type with the same descriptor (`descriptor_of_parse`), as far as it
was written for a name without type arguments and white space. Every name that is made from text is
such a name (`isErased_ofText`). The type itself may differ: the slashes of a name are read as dots.
-/

namespace ClassSynth

theorem Primitive.keyword_of_ofKeyword? {text : String} {primitive : Primitive}
    (h : Primitive.ofKeyword? text = some primitive) : primitive.keyword = text := by
  have hfound := List.find?_some h
  exact beq_iff_eq.mp hfound

theorem TypeName.eq_ofPrimitive {t : TypeName} {p : Primitive} (h : t.primitive? = some p) :
    t = .ofPrimitive p := by
  obtain ⟨text⟩ := t
  exact congrArg TypeName.mk (Primitive.keyword_of_ofKeyword? h).symm

/-- A letter stays absent when another one is replaced. -/
theorem not_mem_replaceChar {c old new : Char} {s : String} (h : c ∉ s.toList) (hnew : c ≠ new) :
    c ∉ (replaceChar old new s).toList := by
  rw [replaceChar, String.toList_ofList]
  intro hmem
  obtain ⟨d, hd, hsame⟩ := List.mem_map.mp hmem
  split_ifs at hsame
  · exact hnew hsame.symm
  · exact h (hsame ▸ hd)

namespace TypeName

/-- There are no type arguments and there is no white space in the name. -/
def isErased (t : TypeName) : Bool :=
  !t.text.toList.any fun c => c == '<' || isBlank c

theorem any_eraseArguments (cs : List Char) (depth : Nat) :
    (eraseArguments depth cs).any (fun c => c == '<' || isBlank c) = false := by
  induction cs generalizing depth with
  | nil => rfl
  | cons c cs ih =>
    unfold eraseArguments
    split_ifs with hopen hclose hkeep
    · exact ih _
    · exact ih _
    · rw [Bool.and_eq_true, Bool.not_eq_true'] at hkeep
      rw [List.any_cons, ih, hkeep.2, Bool.eq_false_iff.mpr hopen]
      rfl
    · exact ih _

theorem isErased_ofText (s : String) : (ofText s).isErased = true := by
  unfold ofText isErased
  split_ifs with hany
  · rw [String.toList_ofList, any_eraseArguments]
    rfl
  · rw [Bool.not_eq_true', Bool.eq_false_iff]
    exact hany

/-! ## Dimensions -/

theorem descriptorChars_arrayOf (t : TypeName) :
    t.arrayOf.descriptorChars = '[' :: t.descriptorChars := by
  have hreverse : t.arrayOf.text.toList.reverse = ']' :: '[' :: t.text.toList.reverse := by
    simp [arrayOf]
  simp only [descriptorChars, hreverse, stripDimensions, List.replicate_succ, List.cons_append]

theorem descriptorChars_addDimensions (n : Nat) (t : TypeName) :
    (Descriptor.addDimensions n t).descriptorChars = List.replicate n '[' ++ t.descriptorChars := by
  induction n generalizing t with
  | zero => rfl
  | succ n ih =>
    rw [Descriptor.addDimensions, ih, descriptorChars_arrayOf, List.replicate_succ',
      List.append_assoc, List.singleton_append]

theorem descriptorChars_ofPrimitive (p : Primitive) :
    (ofPrimitive p).descriptorChars = [p.descriptorChar] := by
  cases p <;> decide

theorem stripDimensions_pos {cs : List Char} (h : (stripDimensions cs).1 ≠ 0) :
    ∃ rest, cs = ']' :: '[' :: rest := by
  unfold stripDimensions at h
  split at h
  · next rest => exact ⟨rest, rfl⟩
  · exact absurd rfl h

theorem stripDimensions_zero {cs : List Char} (h : (stripDimensions cs).1 = 0) :
    (stripDimensions cs).2 = cs := by
  unfold stripDimensions at h ⊢
  split at h
  · cases h
  · rfl

/-- What is left when brackets are stripped ends with no more brackets. -/
theorem stripDimensions_stripDimensions (cs : List Char) :
    (stripDimensions (stripDimensions cs).2).1 = 0 := by
  fun_induction stripDimensions cs with
  | case1 rest n base hrest ih =>
    rw [hrest] at ih
    exact ih
  | case2 cs hcs =>
    unfold stripDimensions
    split
    · next rest hrest => exact (hcs rest hrest).elim
    · rfl

/-- Brackets are not stripped from other characters in their places. -/
theorem stripDimensions_map {f : Char → Char} (hclose : ∀ c, f c = ']' → c = ']')
    (hopen : ∀ c, f c = '[' → c = '[') {cs : List Char} (h : (stripDimensions cs).1 = 0) :
    stripDimensions (cs.map f) = (0, cs.map f) := by
  have hzero : (stripDimensions (cs.map f)).1 = 0 := by
    by_contra hpos
    obtain ⟨rest, hrest⟩ := stripDimensions_pos hpos
    obtain ⟨c, cs', rfl, hc, hcs'⟩ := List.map_eq_cons_iff.mp hrest
    obtain ⟨d, cs'', rfl, hd, _⟩ := List.map_eq_cons_iff.mp hcs'
    rw [hclose c hc, hopen d hd] at h
    cases h
  exact Prod.ext hzero (stripDimensions_zero hzero)

/-! ## Classes -/

/-- The characters of a class name as they stand in a descriptor. -/
def slashed (cs : List Char) : List Char := cs.map fun c => if c == '.' then '/' else c

/-- The characters of a class name in a descriptor as they stand in a name. -/
def dotted (cs : List Char) : List Char := cs.map fun c => if c == '/' then '.' else c

theorem slashed_dotted_slashed (cs : List Char) : slashed (dotted (slashed cs)) = slashed cs := by
  simp only [slashed, dotted, List.map_map]
  refine List.map_congr_left fun c _ => ?_
  by_cases hdot : c = '.'
  · subst hdot
    rfl
  · by_cases hslash : c = '/'
    · subst hslash
      rfl
    · simp [hdot, hslash]

/-- A word without dots is read back only for itself. -/
theorem eq_of_dotted_slashed {cs word : List Char} (hdot : '.' ∉ word)
    (h : dotted (slashed cs) = word) : cs = word := by
  subst h
  simp only [slashed, dotted, List.map_map] at hdot ⊢
  refine (List.map_id cs).symm.trans (List.map_congr_left fun c hc => ?_)
  by_cases hsame : c = '.' ∨ c = '/'
  · refine absurd (List.mem_map.mpr ⟨c, hc, ?_⟩) hdot
    rcases hsame with rfl | rfl <;> rfl
  · rw [not_or] at hsame
    simp [hsame.1, hsame.2]

theorem baseDescriptor_class {base : String} (hvoid : base ≠ "void")
    (hprimitive : Primitive.ofKeyword? base = none) :
    baseDescriptor base = 'L' :: slashed base.toList ++ [';'] := by
  have hne : ¬ (base == "void") = true := by simpa using hvoid
  rw [baseDescriptor, if_neg hne, hprimitive]
  simp [replaceChar, slashed]

end TypeName

namespace Descriptor

theorem leadingBrackets_replicate (n : Nat) {c : Char} (hc : c ≠ '[') (cs : List Char) :
    leadingBrackets (List.replicate n '[' ++ c :: cs) = (n, c :: cs) := by
  induction n with
  | zero =>
    rw [List.replicate_zero, List.nil_append, leadingBrackets]
    simpa using hc
  | succ n ih => rw [List.replicate_succ, List.cons_append, leadingBrackets, ih]

theorem className?_append {name rest : List Char} (h : ';' ∉ name) :
    className? (name ++ ';' :: rest) = some (name, rest) := by
  induction name with
  | nil => rfl
  | cons c name ih =>
    rw [List.mem_cons, not_or] at h
    have hne : ¬ (c == ';') = true := by simpa using Ne.symm h.1
    rw [List.cons_append, className?, if_neg hne, ih h.2]
    rfl

/-- A class name is read up to the first semicolon. -/
theorem className?_eq_some {cs name rest : List Char} (h : className? cs = some (name, rest)) :
    cs = name ++ ';' :: rest ∧ ';' ∉ name := by
  induction cs generalizing name with
  | nil => cases h
  | cons c cs ih =>
    unfold className? at h
    split_ifs at h with hc
    · obtain ⟨rfl, rfl⟩ := Prod.mk.inj (Option.some.inj h)
      exact ⟨by rw [beq_iff_eq.mp hc]; rfl, List.not_mem_nil⟩
    · obtain ⟨⟨name', rest'⟩, hname, heq⟩ := Option.map_eq_some_iff.mp h
      obtain ⟨rfl, rfl⟩ := Prod.mk.inj heq
      obtain ⟨rfl, hnot⟩ := ih hname
      refine ⟨rfl, ?_⟩
      rw [List.mem_cons, not_or]
      exact ⟨fun hsemicolon => hc (beq_iff_eq.mpr hsemicolon.symm), hnot⟩

end Descriptor

namespace TypeName

/-- The name that is read for a class has the descriptor that it was read from. -/
theorem descriptorChars_dotted {cs : List Char} (hcs : (stripDimensions cs.reverse).1 = 0)
    (hvoid : cs ≠ "void".toList) (hprimitive : Primitive.ofKeyword? (String.ofList cs) = none) :
    descriptorChars ⟨String.ofList (dotted (slashed cs))⟩ = 'L' :: slashed cs ++ [';'] := by
  have hstrip :
      stripDimensions (dotted (slashed cs)).reverse = (0, (dotted (slashed cs)).reverse) := by
    have hmap := stripDimensions_map
      (f := (fun c => if c == '/' then '.' else c) ∘ fun c => if c == '.' then '/' else c)
      (fun c hc => by simp only [Function.comp_apply] at hc; split_ifs at hc <;> simp_all)
      (fun c hc => by simp only [Function.comp_apply] at hc; split_ifs at hc <;> simp_all) hcs
    rwa [← List.map_map, List.map_reverse, List.map_reverse] at hmap
  have hvoid' : String.ofList (dotted (slashed cs)) ≠ "void" := by
    intro h
    refine hvoid (eq_of_dotted_slashed (by decide) ?_)
    rw [← h, String.toList_ofList]
  have hprimitive' : Primitive.ofKeyword? (String.ofList (dotted (slashed cs))) = none := by
    refine Option.eq_none_iff_forall_ne_some.mpr fun p hp => ?_
    have hkeyword : p.keyword = String.ofList (dotted (slashed cs)) := by
      simpa using List.find?_some hp
    have hcs : cs = p.keyword.toList :=
      eq_of_dotted_slashed (by cases p <;> decide) (by rw [hkeyword, String.toList_ofList])
    rw [hcs, String.ofList_toList] at hprimitive
    cases p <;> revert hprimitive <;> decide
  simp only [descriptorChars, String.toList_ofList, hstrip, List.reverse_reverse,
    List.replicate_zero, List.nil_append]
  rw [baseDescriptor_class hvoid' hprimitive', String.toList_ofList, slashed_dotted_slashed]

theorem isErased_iff {t : TypeName} :
    t.isErased = true ↔ ∀ c ∈ t.text.toList, c ≠ '<' ∧ isBlank c = false := by
  simp [isErased]

/-- A name without type arguments and white space is taken as it is. -/
theorem ofText_of_isErased {s : String} (h : (⟨s⟩ : TypeName).isErased = true) :
    ofText s = ⟨s⟩ := by
  unfold isErased at h
  rw [Bool.not_eq_true'] at h
  rw [ofText, if_neg (Bool.eq_false_iff.mp h)]

/-- What is stripped of its brackets is a part of the name. -/
theorem mem_of_mem_stripDimensions {cs : List Char} {c : Char} (h : c ∈ (stripDimensions cs).2) :
    c ∈ cs := by
  fun_induction stripDimensions cs with
  | case1 rest n base hrest ih =>
    rw [hrest] at ih
    exact List.mem_cons_of_mem _ (List.mem_cons_of_mem _ (ih h))
  | case2 cs hcs => exact h

/-- A class name that is read back stays erased. -/
theorem isErased_dotted {cs : List Char} (h : ∀ c ∈ cs, c ≠ '<' ∧ isBlank c = false) :
    isErased ⟨String.ofList (dotted (slashed cs))⟩ = true := by
  rw [isErased_iff, String.toList_ofList]
  intro c hc
  obtain ⟨d, hd, rfl⟩ := List.mem_map.mp hc
  obtain ⟨e, he, rfl⟩ := List.mem_map.mp hd
  by_cases hsame : e = '.' ∨ e = '/'
  · rcases hsame with rfl | rfl <;> decide
  · rw [not_or] at hsame
    simpa [hsame.1, hsame.2] using h e he

theorem descriptorChars_ne_nil (t : TypeName) : t.descriptorChars ≠ [] := by
  intro h
  have hbase := (List.append_eq_nil_iff.mp h).2
  unfold baseDescriptor at hbase
  split_ifs at hbase
  split at hbase <;> cases hbase

theorem length_le_flatMap_descriptorChars (params : List TypeName) :
    params.length ≤ (params.flatMap descriptorChars).length := by
  induction params with
  | nil => exact Nat.le_refl _
  | cons t params ih =>
    have hpos := List.length_pos_iff.mpr t.descriptorChars_ne_nil
    rw [List.flatMap_cons, List.length_append, List.length_cons]
    omega

/-- The type that is read for the descriptor of a type has the same descriptor. -/
theorem descriptor_of_parse {t t' : TypeName} (herased : t.isErased = true)
    (h : parseFieldDescriptor t.descriptor = .ok t') : t'.descriptor = t.descriptor := by
  obtain ⟨n, base, hstrip⟩ : ∃ n base, stripDimensions t.text.toList.reverse = (n, base.reverse) :=
    ⟨_, (stripDimensions t.text.toList.reverse).2.reverse, by rw [List.reverse_reverse]⟩
  have hchars : t.descriptorChars =
      List.replicate n '[' ++ baseDescriptor (String.ofList base) := by
    simp only [descriptorChars, hstrip, List.reverse_reverse]
  have hparse : Descriptor.typeAt? t.descriptorChars = some (t', []) := by
    unfold parseFieldDescriptor Descriptor.field? at h
    rw [descriptor, String.toList_ofList] at h
    split at h
    · next t'' hfield =>
      split at hfield
      · next t₁ hat =>
        obtain rfl := Option.some.inj hfield
        obtain rfl := Except.ok.inj h
        exact hat
      · cases hfield
    · cases h
  suffices hsame : t'.descriptorChars = t.descriptorChars by rw [descriptor, hsame, descriptor]
  rw [hchars] at hparse ⊢
  by_cases hvoid : String.ofList base = "void"
  · rw [hvoid] at hparse ⊢
    have hbrackets := Descriptor.leadingBrackets_replicate n (c := 'V') (by decide) []
    simp only [Descriptor.typeAt?, baseDescriptor, beq_self_eq_true, if_true, hbrackets] at hparse ⊢
    split_ifs at hparse with hn
    obtain rfl := (Prod.mk.inj (Option.some.inj hparse)).1
    rw [beq_iff_eq.mp hn]
    decide
  cases hprimitive : Primitive.ofKeyword? (String.ofList base) with
  | some p =>
    have hne : ¬ (String.ofList base == "void") = true := by simpa using hvoid
    rw [baseDescriptor, if_neg hne, hprimitive] at hparse ⊢
    dsimp only at hparse ⊢
    have hread : Descriptor.typeAt? (List.replicate n '[' ++ [p.descriptorChar])
        = some (Descriptor.addDimensions n (ofPrimitive p), []) := by
      have hbrackets := Descriptor.leadingBrackets_replicate n (c := p.descriptorChar)
        (by cases p <;> decide) []
      simp only [Descriptor.typeAt?, hbrackets]
      cases p <;> rfl
    obtain rfl := (Prod.mk.inj (Option.some.inj (hread.symm.trans hparse))).1
    rw [descriptorChars_addDimensions, descriptorChars_ofPrimitive]
  | none =>
    rw [baseDescriptor_class hvoid hprimitive, String.toList_ofList] at hparse ⊢
    have hbrackets := Descriptor.leadingBrackets_replicate n (c := 'L') (by decide)
      (slashed base ++ [';'])
    simp only [Descriptor.typeAt?, List.cons_append, hbrackets] at hparse ⊢
    obtain ⟨⟨name, rest⟩, hname, heq⟩ := Option.map_eq_some_iff.mp hparse
    obtain ⟨rfl, rfl⟩ := Prod.mk.inj heq
    obtain ⟨hname, -⟩ := Descriptor.className?_eq_some hname
    obtain rfl := (List.append_inj_left' hname rfl).symm
    have htext : replaceChar '/' '.' (String.ofList (slashed base))
        = String.ofList (dotted (slashed base)) := by
      rw [replaceChar, String.toList_ofList]
      rfl
    have hreverse : (stripDimensions base.reverse).1 = 0 := by
      have hidem := stripDimensions_stripDimensions t.text.toList.reverse
      rwa [hstrip] at hidem
    have hletters : ∀ c ∈ base, c ≠ '<' ∧ isBlank c = false := by
      intro c hc
      refine isErased_iff.mp herased c (List.mem_reverse.mp (mem_of_mem_stripDimensions ?_))
      rw [hstrip]
      exact List.mem_reverse.mpr hc
    rw [htext, ofText_of_isErased (isErased_dotted hletters), descriptorChars_addDimensions,
      descriptorChars_dotted hreverse (fun hbase => hvoid (by rw [hbase, String.ofList_toList]))
        hprimitive, List.cons_append]

end TypeName

end ClassSynth
