import ClassSynth.Proofs.Descriptor
import Mathlib.Tactic.SplitIfs

/-!
# Descriptors and signatures

A signature is read back from its descriptor, type by type and whatever follows
(`typeAt?_descriptorChars`), so different signatures have different descriptors. In the other
direction, a descriptor that was read is that of the signature (`eq_of_typeAt?`), as far as the
names of its classes are names that are taken as they are and are not those of other types.

Main result: `Descriptor.signatures_and_descriptors`.
-/

namespace ClassSynth

/-! ## Types that have values -/

/-- A class name in source notation. A closing bracket pair would make it the name of an array
type. -/
structure IsClassName (name : String) : Prop where
  letters : ∀ c ∈ name.toList, c ≠ ';' ∧ c ≠ '/' ∧ c ≠ '<' ∧ isBlank c = false
  dimensions : ¬ ['[', ']'] <:+ name.toList
  notVoid : name ≠ "void"

/-- A type that a parameter can have: an array of any depth over a primitive type or a class. -/
inductive TypeName.HasDescriptor : TypeName → Prop
  | primitive (p : Primitive) : HasDescriptor (.ofPrimitive p)
  | ofClass {name : String} (h : IsClassName name) : HasDescriptor ⟨name⟩
  | arrayOf {t : TypeName} (h : HasDescriptor t) : HasDescriptor t.arrayOf

namespace TypeName

theorem stripDimensions_of_not_suffix {cs : List Char} (h : ¬ ['[', ']'] <:+ cs) :
    stripDimensions cs.reverse = (0, cs.reverse) := by
  have hzero : (stripDimensions cs.reverse).1 = 0 := by
    by_contra hpos
    obtain ⟨rest, hrest⟩ := stripDimensions_pos hpos
    refine h ⟨rest.reverse, ?_⟩
    rw [← List.reverse_reverse cs, hrest]
    simp
  exact Prod.ext hzero (stripDimensions_zero hzero)

theorem descriptorChars_class {name : String} (h : IsClassName name)
    (hprimitive : Primitive.ofKeyword? name = none) :
    descriptorChars ⟨name⟩ = 'L' :: slashed name.toList ++ [';'] := by
  rw [descriptorChars, stripDimensions_of_not_suffix h.dimensions]
  simp only [List.reverse_reverse, String.ofList_toList, List.replicate_zero, List.nil_append]
  exact baseDescriptor_class h.notVoid hprimitive

theorem dotted_slashed {cs : List Char} (h : '/' ∉ cs) : dotted (slashed cs) = cs := by
  rw [slashed, dotted, List.map_map]
  refine (List.map_congr_left fun c hc => ?_).trans (List.map_id cs)
  by_cases hdot : c = '.'
  · subst hdot
    rfl
  · have hslash : c ≠ '/' := fun hslash => h (hslash ▸ hc)
    simp [hdot, hslash]

/-- A name in source notation is read back from class file notation. -/
theorem replaceChar_replaceChar {s : String} (h : '/' ∉ s.toList) :
    replaceChar '/' '.' (replaceChar '.' '/' s) = s := by
  rw [replaceChar, replaceChar, String.toList_ofList]
  exact (congrArg String.ofList (dotted_slashed h)).trans String.ofList_toList

theorem slashed_of_not_mem {cs : List Char} (h : '.' ∉ cs) : slashed cs = cs := by
  rw [slashed]
  refine (List.map_congr_left fun c hc => ?_).trans (List.map_id cs)
  have hdot : c ≠ '.' := fun hdot => h (hdot ▸ hc)
  simp [hdot]

end TypeName

namespace Descriptor

open ClassSynth.TypeName

theorem addDimensions_arrayOf (n : Nat) (t : TypeName) :
    addDimensions n t.arrayOf = (addDimensions n t).arrayOf := by
  induction n generalizing t with
  | zero => rfl
  | succ n ih => exact ih t.arrayOf

/-! ## Reading what was written -/

theorem typeAt?_primitive (n : Nat) (p : Primitive) (rest : List Char) :
    typeAt? (List.replicate n '[' ++ p.descriptorChar :: rest)
      = some (addDimensions n (.ofPrimitive p), rest) := by
  rw [typeAt?, leadingBrackets_replicate n (by cases p <;> decide)]
  cases p <;> rfl

theorem typeAt?_class (n : Nat) {name : String} (h : IsClassName name) (rest : List Char) :
    typeAt? (List.replicate n '[' ++ 'L' :: (slashed name.toList ++ ';' :: rest))
      = some (addDimensions n ⟨name⟩, rest) := by
  have hsemicolon : ';' ∉ slashed name.toList := by
    intro hmem
    obtain ⟨c, hc, hsame⟩ := List.mem_map.mp hmem
    split_ifs at hsame
    · cases hsame
    · exact (h.letters c hc).1 hsame
  have hslash : '/' ∉ name.toList := fun hmem => (h.letters _ hmem).2.1 rfl
  have herased : (⟨name⟩ : TypeName).isErased = true :=
    isErased_iff.mpr fun c hc => (h.letters c hc).2.2
  have hdotted : replaceChar '/' '.' (String.ofList (slashed name.toList)) = name :=
    replaceChar_replaceChar hslash
  rw [typeAt?, leadingBrackets_replicate n (by decide)]
  simp only [className?_append hsemicolon, Option.map_some, hdotted, ofText_of_isErased herased]

/-- The dimensions of a type, over a primitive type or a class. -/
theorem exists_base {t : TypeName} (h : t.HasDescriptor) :
    (∃ n p, t = addDimensions n (.ofPrimitive p)) ∨
      ∃ n name, IsClassName name ∧ Primitive.ofKeyword? name = none ∧
        t = addDimensions n ⟨name⟩ := by
  induction h with
  | primitive p => exact .inl ⟨0, p, rfl⟩
  | @ofClass name h =>
    cases hprimitive : Primitive.ofKeyword? name with
    | some p => exact .inl ⟨0, p, eq_ofPrimitive hprimitive⟩
    | none => exact .inr ⟨0, name, h, hprimitive, rfl⟩
  | arrayOf _ ih =>
    obtain ⟨n, p, rfl⟩ | ⟨n, name, h, hprimitive, rfl⟩ := ih
    · exact .inl ⟨n + 1, p, (addDimensions_arrayOf n _).symm⟩
    · exact .inr ⟨n + 1, name, h, hprimitive, (addDimensions_arrayOf n _).symm⟩

/-- A type that was written is read back, whatever follows it. -/
theorem typeAt?_descriptorChars {t : TypeName} (h : t.HasDescriptor) (rest : List Char) :
    typeAt? (t.descriptorChars ++ rest) = some (t, rest) := by
  obtain ⟨n, p, rfl⟩ | ⟨n, name, hname, hprimitive, rfl⟩ := exists_base h
  · rw [descriptorChars_addDimensions, descriptorChars_ofPrimitive, List.append_assoc]
    exact typeAt?_primitive n p rest
  · rw [descriptorChars_addDimensions, descriptorChars_class hname hprimitive]
    simpa using typeAt?_class n hname rest

theorem typeAt?_void (rest : List Char) :
    typeAt? (TypeName.void.descriptorChars ++ rest) = some (.void, rest) := by
  have hvoid : TypeName.void.descriptorChars = ['V'] := by decide
  rw [hvoid]
  rfl

/-- Also `void` is read back, whatever follows it. -/
theorem typeAt?_described {t : TypeName} (h : t = .void ∨ t.HasDescriptor) (rest : List Char) :
    typeAt? (t.descriptorChars ++ rest) = some (t, rest) := by
  obtain rfl | h := h
  · exact typeAt?_void rest
  · exact typeAt?_descriptorChars h rest

/-- Parameters that were written are read back, up to the parenthesis. -/
theorem paramsAux_descriptorChars {params : List TypeName}
    (h : ∀ t ∈ params, t = .void ∨ t.HasDescriptor) (fuel : Nat) (hfuel : params.length ≤ fuel)
    (done : List TypeName) (rest : List Char) :
    paramsAux fuel done (params.flatMap descriptorChars ++ ')' :: rest)
      = some (done.reverse ++ params, rest) := by
  induction params generalizing fuel done with
  | nil => cases fuel <;> simp [paramsAux]
  | cons t params ih =>
    obtain ⟨ht, hparams⟩ := List.forall_mem_cons.mp h
    obtain ⟨fuel, rfl⟩ : ∃ n, fuel = n + 1 := ⟨fuel - 1, by simp at hfuel; omega⟩
    have hfirst := typeAt?_described ht (params.flatMap descriptorChars ++ ')' :: rest)
    rw [List.flatMap_cons, List.append_assoc, paramsAux, hfirst]
    · have hmore := ih hparams fuel (Nat.le_of_succ_le_succ hfuel) (t :: done)
      rwa [List.reverse_cons, List.append_assoc, List.singleton_append] at hmore
    · -- a parenthesis is no type
      intro more hmore
      rw [hmore] at hfirst
      cases hfirst

/-- What a descriptor was written for is read back from it. -/
theorem parse_described {params : List TypeName} {ret : TypeName}
    (hparams : ∀ t ∈ params, t = .void ∨ t.HasDescriptor) (hret : ret = .void ∨ ret.HasDescriptor) :
    parseMethodDescriptor (methodDescriptor params ret) = .ok (params, ret) := by
  have hend : typeAt? ret.descriptorChars = some (ret, []) := by
    rw [← List.append_nil ret.descriptorChars]
    exact typeAt?_described hret []
  have hlength := length_le_flatMap_descriptorChars params
  have hread := paramsAux_descriptorChars hparams
    (params.flatMap descriptorChars ++ ')' :: ret.descriptorChars).length
    (by rw [List.length_append]; omega) [] ret.descriptorChars
  rw [parseMethodDescriptor, methodDescriptor, String.toList_ofList, methodDescriptorChars,
    List.cons_append, method?, hread]
  simp [hend]

/-- A signature is read back from its descriptor. -/
theorem parse_methodDescriptor {params : List TypeName} {ret : TypeName}
    (hparams : ∀ t ∈ params, t.HasDescriptor) (hret : ret = .void ∨ ret.HasDescriptor) :
    parseMethodDescriptor (methodDescriptor params ret) = .ok (params, ret) :=
  parse_described (fun t ht => .inr (hparams t ht)) hret

/-! ## Writing what was read -/

/-- The names between each `L` and the next semicolon. What was read of a name so far is given in
reverse. -/
def classNamesAux : Option (List Char) → List Char → List (List Char)
  | _, [] => []
  | none, c :: cs => classNamesAux (if c == 'L' then some [] else none) cs
  | some name, c :: cs =>
    if c == ';' then name.reverse :: classNamesAux none cs else classNamesAux (some (c :: name)) cs

/-- The names of the classes in a descriptor. -/
def classNames (cs : List Char) : List (List Char) := classNamesAux none cs

/-- The name of a class in a descriptor that is read as a name in source notation: its slashes are
the only letters that change, and it is not the name of another type. -/
structure IsPlainName (name : List Char) : Prop where
  letters : ∀ c ∈ name, c ≠ '.' ∧ c ≠ '<' ∧ isBlank c = false
  dimensions : ¬ ['[', ']'] <:+ name
  notVoid : name ≠ "void".toList
  notPrimitive : Primitive.ofKeyword? (String.ofList name) = none

theorem classNames_cons {c : Char} (h : c ≠ 'L') (cs : List Char) :
    classNames (c :: cs) = classNames cs := by
  rw [classNames, classNamesAux, if_neg (by simpa using h), classNames]

theorem classNames_replicate (n : Nat) (cs : List Char) :
    classNames (List.replicate n '[' ++ cs) = classNames cs := by
  induction n with
  | zero => rfl
  | succ n ih =>
    rw [List.replicate_succ, List.cons_append, classNames_cons (by decide), ih]

theorem classNames_class {name : List Char} (h : ';' ∉ name) (rest : List Char) :
    classNames ('L' :: (name ++ ';' :: rest)) = name :: classNames rest := by
  have haux : ∀ done, classNamesAux (some done) (name ++ ';' :: rest)
      = (done.reverse ++ name) :: classNames rest := by
    induction name with
    | nil => intro done; simp [classNamesAux, classNames]
    | cons c name ih =>
      intro done
      rw [List.mem_cons, not_or] at h
      rw [List.cons_append, classNamesAux, if_neg (by simpa using Ne.symm h.1), ih h.2]
      simp
  rw [classNames, classNamesAux]
  exact haux []

theorem eq_replicate_append (cs : List Char) :
    cs = List.replicate (leadingBrackets cs).1 '[' ++ (leadingBrackets cs).2 := by
  fun_induction leadingBrackets cs with
  | case1 rest n rest' hrest ih =>
    rw [hrest] at ih
    rw [List.replicate_succ, List.cons_append, ← ih]
  | case2 rest hrest => rfl

theorem descriptorChar_of_ofDescriptorChar? {c : Char} {p : Primitive}
    (h : Primitive.ofDescriptorChar? c = some p) : p.descriptorChar = c := by
  simpa using List.find?_some h

/-- A class that was read is written with the same name. -/
theorem descriptorChars_of_plain {name : List Char} (h : IsPlainName name) :
    (TypeName.ofText (replaceChar '/' '.' (String.ofList name))).descriptorChars
      = 'L' :: name ++ [';'] := by
  have hslashed : slashed name = name :=
    slashed_of_not_mem fun hdot => (h.letters _ hdot).1 rfl
  have htext : replaceChar '/' '.' (String.ofList name)
      = String.ofList (dotted (slashed name)) := by
    rw [replaceChar, String.toList_ofList, hslashed]
    rfl
  have hdims : (stripDimensions name.reverse).1 = 0 := by
    rw [stripDimensions_of_not_suffix h.dimensions]
  rw [htext, ofText_of_isErased (isErased_dotted fun c hc => (h.letters c hc).2),
    descriptorChars_dotted hdims h.notVoid h.notPrimitive, hslashed]

/-- What was read as a type is the descriptor of the type. -/
theorem of_typeAt? {cs rest : List Char} {t : TypeName}
    (hnames : ∀ name ∈ classNames cs, IsPlainName name) (h : typeAt? cs = some (t, rest)) :
    cs = t.descriptorChars ++ rest ∧ ∀ name ∈ classNames rest, IsPlainName name := by
  have hcs := eq_replicate_append cs
  rw [typeAt?] at h
  generalize leadingBrackets cs = found at h hcs
  obtain ⟨n, more⟩ := found
  dsimp only at h hcs
  subst hcs
  rw [classNames_replicate] at hnames
  split at h
  · cases h
  · next rest' =>
    split_ifs at h with hn
    obtain ⟨rfl, rfl⟩ := Prod.mk.inj (Option.some.inj h)
    obtain rfl := beq_iff_eq.mp hn
    have hvoid : TypeName.void.descriptorChars = ['V'] := by decide
    rw [classNames_cons (by decide)] at hnames
    exact ⟨by rw [hvoid]; rfl, hnames⟩
  · next rest' =>
    obtain ⟨⟨name, rest''⟩, hname, hsame⟩ := Option.map_eq_some_iff.mp h
    obtain ⟨rfl, rfl⟩ := Prod.mk.inj hsame
    obtain ⟨rfl, hsemicolon⟩ := className?_eq_some hname
    rw [classNames_class hsemicolon] at hnames
    obtain ⟨hplain, hrest⟩ := List.forall_mem_cons.mp hnames
    refine ⟨?_, hrest⟩
    rw [descriptorChars_addDimensions, descriptorChars_of_plain hplain]
    simp
  · next c rest' hV hL =>
    obtain ⟨p, hp, hsame⟩ := Option.map_eq_some_iff.mp h
    obtain ⟨rfl, rfl⟩ := Prod.mk.inj hsame
    rw [classNames_cons hL] at hnames
    refine ⟨?_, hnames⟩
    rw [descriptorChars_addDimensions, descriptorChars_ofPrimitive,
      descriptorChar_of_ofDescriptorChar? hp, List.append_assoc, List.singleton_append]

/-- What was read as parameters are their descriptors, and the parenthesis. -/
theorem of_paramsAux {fuel : Nat} {done params : List TypeName} {cs rest : List Char}
    (hnames : ∀ name ∈ classNames cs, IsPlainName name)
    (h : paramsAux fuel done cs = some (params, rest)) :
    ∃ read, params = done.reverse ++ read ∧
      cs = read.flatMap descriptorChars ++ ')' :: rest ∧
      ∀ name ∈ classNames rest, IsPlainName name := by
  fun_induction paramsAux fuel done cs with
  | case1 fuel done rest' =>
    obtain ⟨rfl, rfl⟩ := Prod.mk.inj (Option.some.inj h)
    rw [classNames_cons (by decide)] at hnames
    exact ⟨[], (List.append_nil _).symm, rfl, hnames⟩
  | case2 => cases h
  | case3 fuel done cs hparen t rest' hread ih =>
    obtain ⟨rfl, hrest⟩ := of_typeAt? hnames hread
    obtain ⟨read, rfl, rfl, hnames'⟩ := ih hrest h
    exact ⟨t :: read, by simp, by simp, hnames'⟩
  | case4 => cases h

/-- A signature that was read has the descriptor it was read from. -/
theorem methodDescriptor_of_parse {s : String} {params : List TypeName} {ret : TypeName}
    (hnames : ∀ name ∈ classNames s.toList, IsPlainName name)
    (h : parseMethodDescriptor s = .ok (params, ret)) : methodDescriptor params ret = s := by
  unfold parseMethodDescriptor at h
  split at h
  · next sig hsig =>
    obtain rfl := Except.ok.inj h
    unfold method? at hsig
    split at hsig
    · next cs hs =>
      rw [hs, classNames_cons (by decide)] at hnames
      split at hsig
      · next params' rest hread =>
        split at hsig
        · next ret' hret =>
          obtain ⟨rfl, rfl⟩ := Prod.mk.inj (Option.some.inj hsig)
          obtain ⟨read, rfl, rfl, hrest⟩ := of_paramsAux hnames hread
          obtain ⟨rfl, -⟩ := of_typeAt? hrest hret
          refine String.toList_inj.mp ?_
          rw [hs, methodDescriptor, String.toList_ofList, methodDescriptorChars]
          simp
        · cases hsig
      · cases hsig
    · cases hsig
  · cases h

/-- **Descriptors stand for signatures.** A signature is read back from its descriptor, if its types
are arrays over primitive types and classes and the result may be `void`; so different signatures
have different descriptors. And a descriptor that can be read is the one of the signature that is
read, if the names of its classes are plain. -/
theorem signatures_and_descriptors :
    (∀ params ret, (∀ t ∈ params, t.HasDescriptor) → (ret = .void ∨ ret.HasDescriptor) →
      parseMethodDescriptor (methodDescriptor params ret) = .ok (params, ret) ∧
        ∀ params' ret', (∀ t ∈ params', t.HasDescriptor) → (ret' = .void ∨ ret'.HasDescriptor) →
          methodDescriptor params ret = methodDescriptor params' ret' →
            params = params' ∧ ret = ret') ∧
    (∀ s params ret, (∀ name ∈ classNames s.toList, IsPlainName name) →
      parseMethodDescriptor s = .ok (params, ret) → methodDescriptor params ret = s) := by
  refine ⟨fun params ret hparams hret => ?_, fun s params ret => methodDescriptor_of_parse⟩
  have hread := parse_methodDescriptor hparams hret
  refine ⟨hread, fun params' ret' hparams' hret' hsame => ?_⟩
  rw [hsame, parse_methodDescriptor hparams' hret'] at hread
  obtain ⟨rfl, rfl⟩ := Prod.mk.inj (Except.ok.inj hread)
  exact ⟨rfl, rfl⟩

theorem isClassName_string : IsClassName "java.lang.String" where
  -- The letters of the text are tried, not all characters.
  letters := @of_decide_eq_true _ (List.decidableBAll _ _) rfl
  dimensions := by decide
  notVoid := by decide

/-- The signature of `void print(int[][], String)`, in both directions. -/
theorem signatures_and_descriptors_print :
    (∀ t ∈ [TypeName.int.arrayOf.arrayOf, .string], t.HasDescriptor) ∧
      parseMethodDescriptor (methodDescriptor [TypeName.int.arrayOf.arrayOf, .string] .void)
        = .ok ([TypeName.int.arrayOf.arrayOf, .string], .void) ∧
      (∀ name ∈ classNames "([[ILjava/lang/String;)V".toList, IsPlainName name) ∧
      methodDescriptor [TypeName.int.arrayOf.arrayOf, .string] .void
        = "([[ILjava/lang/String;)V" := by
  have htypes : ∀ t ∈ [TypeName.int.arrayOf.arrayOf, .string], t.HasDescriptor := by
    intro t ht
    obtain rfl | ht := List.mem_cons.mp ht
    · exact .arrayOf (.arrayOf (.primitive .int))
    · obtain rfl := List.mem_singleton.mp ht
      exact .ofClass isClassName_string
  have hnames : ∀ name ∈ classNames "([[ILjava/lang/String;)V".toList, IsPlainName name := by
    intro name hname
    obtain rfl := List.mem_singleton.mp
      (show name ∈ ["java/lang/String".toList] from hname)
    exact ⟨@of_decide_eq_true _ (List.decidableBAll _ _) rfl, by decide, by decide, by decide⟩
  obtain ⟨hread, hwritten⟩ := signatures_and_descriptors
  exact ⟨htypes, (hread _ _ htypes (.inl rfl)).1, hnames, hwritten _ _ _ hnames (by decide)⟩

end Descriptor

end ClassSynth
