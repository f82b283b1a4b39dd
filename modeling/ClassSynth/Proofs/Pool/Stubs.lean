import ClassSynth.Pool.Layer
import ClassSynth.Proofs.ClassUnit.Outlines
import ClassSynth.Proofs.Descriptor.RoundTrip
import ClassSynth.Proofs.Repeats

/-!
# Stubs of declarations

A declared type is looked up through its stub, a class file without code that is read as a
declaration again. The stub shows the names and the signatures of the declaration
(`TypeDeclaration.exists_toStub`), and a class file that shows them is read as a declaration that
agrees with it (`TypeDeclaration.exists_view`).

Main result: `TypeDeclaration.seen_through_stub`.
-/

namespace ClassSynth

open ClassUnit

/-! ## Names without parentheses -/

/-- A class name in source notation without a parenthesis, which would start a descriptor. -/
structure IsPlainClass (name : String) : Prop extends IsClassName name where
  noParenthesis : '(' ∉ name.toList

/-- A type that a signature can mention. -/
structure TypeName.IsPlain (t : TypeName) : Prop where
  described : t = .void ∨ t.HasDescriptor
  noParenthesis : '(' ∉ t.text.toList

namespace TypeName

variable {t : TypeName}

theorem not_mem_descriptorChars (h : '(' ∉ t.text.toList) : '(' ∉ t.descriptorChars := by
  intro hmem
  rw [descriptorChars, List.mem_append] at hmem
  obtain hbracket | hbase := hmem
  · cases (List.mem_replicate.mp hbracket).2
  have hstripped : '(' ∉ (String.ofList
      (stripDimensions t.text.toList.reverse).2.reverse).toList := by
    rw [String.toList_ofList, List.mem_reverse]
    exact fun hmem => h (List.mem_reverse.mp (mem_of_mem_stripDimensions hmem))
  unfold baseDescriptor at hbase
  split_ifs at hbase
  · simp at hbase
  · split at hbase
    · next p _ => cases p <;> simp [Primitive.descriptorChar] at hbase
    · simp [not_mem_replaceChar hstripped] at hbase

theorem not_mem_internalName (h : '(' ∉ t.text.toList) : '(' ∉ t.internalName.toList := by
  unfold internalName
  split_ifs
  · simpa [descriptor] using not_mem_descriptorChars h
  · exact not_mem_replaceChar h (by decide)

theorem internalName_eq (h : IsClassName t.text) : t.internalName = replaceChar '.' '/' t.text := by
  have hbase : t.isArray = false := by
    unfold isArray element?
    split
    · next rest hrest =>
      refine absurd ⟨rest.reverse, ?_⟩ h.dimensions
      rw [← List.reverse_reverse t.text.toList, hrest]
      simp
    · rfl
  rw [internalName, hbase]
  rfl

/-- The name of a class is read back from its internal name. -/
theorem ofInternal_internalName (h : IsClassName t.text) : ofInternal t.internalName = t := by
  rw [internalName_eq h, ofInternal,
    replaceChar_replaceChar fun hslash => (h.letters _ hslash).2.1 rfl]

end TypeName

/-! ## Descriptors -/

theorem methodDescriptor_eq_cons (params : List TypeName) (ret : TypeName) :
    (methodDescriptor params ret).toList =
      '(' :: (params.flatMap TypeName.descriptorChars ++ ')' :: ret.descriptorChars) := by
  rw [methodDescriptor, String.toList_ofList, methodDescriptorChars]
  rfl

/-- A descriptor of plain types holds no parenthesis but the first one. -/
theorem not_mem_signature {params : List TypeName} {ret : TypeName}
    (hparams : ∀ t ∈ params, '(' ∉ t.text.toList) (hret : '(' ∉ ret.text.toList) :
    '(' ∉ params.flatMap TypeName.descriptorChars ++ ')' :: ret.descriptorChars := by
  simp only [List.mem_append, List.mem_flatMap, List.mem_cons, not_or, not_exists, not_and]
  exact ⟨fun t ht => TypeName.not_mem_descriptorChars (hparams t ht), by decide,
    TypeName.not_mem_descriptorChars hret⟩

/-- The last parenthesis parts a name from the rest of the descriptor. -/
theorem eq_of_append_parenthesis {a b r s : List Char} (hr : '(' ∉ r) (hs : '(' ∉ s)
    (h : a ++ '(' :: r = b ++ '(' :: s) : a = b ∧ r = s := by
  obtain ⟨more, rfl, hrest⟩ | ⟨more, rfl, hrest⟩ := List.append_eq_append_iff.mp h
  all_goals
    cases more with
    | nil => simp_all
    | cons c more => simp_all

namespace MethodDeclaration

variable {m n : MethodDeclaration}

/-- The types of the method are plain, and it is no initializer. -/
structure IsPlain (m : MethodDeclaration) : Prop where
  params : ∀ t ∈ m.paramTypes, t.IsPlain
  returnType : m.returnType.IsPlain
  notConstructor : m.name ≠ constructorName
  notInitializer : m.name ≠ initializerName

/-- A key stands for one name and one descriptor. -/
theorem IsPlain.key_eq_iff (hm : m.IsPlain) (hn : n.IsPlain) :
    m.key = n.key ↔ m.name = n.name ∧ m.descriptor = n.descriptor := by
  constructor
  · intro hkey
    have htexts := congrArg String.toList hkey
    rw [key, key, String.toList_append, String.toList_append, descriptor, descriptor,
      methodDescriptor_eq_cons, methodDescriptor_eq_cons] at htexts
    obtain ⟨hname, hrest⟩ := eq_of_append_parenthesis
      (not_mem_signature (fun t ht => (hm.params t ht).noParenthesis) hm.returnType.noParenthesis)
      (not_mem_signature (fun t ht => (hn.params t ht).noParenthesis) hn.returnType.noParenthesis)
      htexts
    refine ⟨String.toList_injective hname, String.toList_injective ?_⟩
    rw [descriptor, descriptor, methodDescriptor_eq_cons, methodDescriptor_eq_cons, hrest]
  · rintro ⟨hname, hdescriptor⟩
    rw [key, key, hname, hdescriptor]

end MethodDeclaration

/-! ## What a stub shows -/

namespace TypeDeclaration

variable {d : TypeDeclaration}

/-- The names of the declaration are plain, no interface and no constructor is declared twice, and
no method is an initializer. -/
structure IsPlain (d : TypeDeclaration) : Prop where
  name : IsPlainClass d.qualifiedName
  supertypes : ∀ t ∈ d.supertypes, IsPlainClass t.text
  interfaces : d.interfaces.Nodup
  constructorTypes : ∀ c ∈ d.constructors, ∀ t ∈ c.paramTypes, t.IsPlain
  constructors : (d.constructors.map ConstructorDeclaration.descriptor).Nodup
  methods : ∀ m ∈ d.methods, m.IsPlain

/-- The superclass that the stub of the declaration has. -/
def stubSuperclass (d : TypeDeclaration) : TypeName :=
  if d.isInterface then .object else d.superclass.getD .object

def stubFlags (d : TypeDeclaration) : UInt16 :=
  if d.isInterface then AccessFlags.isPublic ||| AccessFlags.isInterface ||| AccessFlags.isAbstract
  else
    AccessFlags.isPublic ||| AccessFlags.isSuper |||
      if d.isAbstract then AccessFlags.isAbstract else 0

/-- Of the methods of a key, the first one is declared. -/
def keptMethods (d : TypeDeclaration) : List MethodDeclaration :=
  d.methods.eraseDupsBy fun m other => m.key == other.key

def constructorOutline (c : ConstructorDeclaration) : MethodOutline :=
  ⟨AccessFlags.isPublic ||| AccessFlags.isNative, constructorName, c.descriptor⟩

def methodOutline (m : MethodDeclaration) : MethodOutline :=
  ⟨methodFlags m, m.name, m.descriptor⟩

/-- The texts of the names of the declaration. -/
def headTexts (d : TypeDeclaration) : List String :=
  [d.name.internalName, objectInternalName] ++
    (if d.isInterface then d.interfaces else d.supertypes).map TypeName.internalName

/-- The texts of the declaration, in class file notation. -/
def texts (d : TypeDeclaration) : List String :=
  d.headTexts ++ d.effectiveConstructors.flatMap (fun c => [constructorName, c.descriptor]) ++
    d.methods.flatMap fun m => [m.name, m.descriptor]

/-- What the stub of the declaration shows. -/
def outline (d : TypeDeclaration) : Outline where
  flags := d.stubFlags
  name := d.name.internalName
  superName := d.stubSuperclass.internalName
  interfaces := d.interfaces.map TypeName.internalName
  methods := d.effectiveConstructors.map constructorOutline ++ d.keptMethods.map methodOutline
  texts := d.texts

/-! ### Lists of declarations -/

/-- A list is declared one by one. -/
theorem exists_run_forM {α : Type} {f : α → Edit Unit} {P : List α → ClassUnit → Prop}
    {l : List α} {c : ClassUnit} (h : P [] c)
    (hstep : ∀ done a rest, l = done ++ a :: rest → ∀ c, P done c →
      ∃ c', (f a).run.run c = (.ok (), c') ∧ P (done ++ [a]) c') :
    ∃ c', (l.forM f).run.run c = (.ok (), c') ∧ P l c' := by
  have hrest : ∀ rest done c, l = done ++ rest → P done c →
      ∃ c', (rest.forM f).run.run c = (.ok (), c') ∧ P l c' := by
    intro rest
    induction rest with
    | nil =>
      intro done c hl hc
      rw [List.append_nil] at hl
      exact ⟨c, rfl, hl ▸ hc⟩
    | cons a rest ih =>
      intro done c hl hc
      obtain ⟨c₁, hfirst, hc₁⟩ := hstep done a rest hl c hc
      obtain ⟨c', hmore, hc'⟩ := ih (done ++ [a]) c₁ (by simp [hl]) hc₁
      exact ⟨c', (run_bind_of_ok hfirst).trans hmore, hc'⟩
  exact hrest l [] c rfl h

variable {c : ClassUnit} {o : Outline}

theorem exists_addInterfaces (h : c.HasOutline o) (l : List TypeName)
    (hdistinct : (o.interfaces ++ l.map TypeName.internalName).Nodup) :
    ∃ c', (l.forM ClassUnit.addInterface).run.run c = (.ok (), c') ∧
      c'.HasOutline { o with
        interfaces := o.interfaces ++ l.map TypeName.internalName
        texts := o.texts ++ l.map TypeName.internalName } := by
  refine exists_run_forM (P := fun done c => c.HasOutline { o with
    interfaces := o.interfaces ++ done.map TypeName.internalName
    texts := o.texts ++ done.map TypeName.internalName }) (by simpa using h) ?_
  intro done t rest hl c hc
  subst hl
  have hnew : t.internalName ∉ o.interfaces ++ done.map TypeName.internalName := by
    rw [List.map_append, List.map_cons, ← List.append_assoc, List.nodup_append'] at hdistinct
    exact fun hmem => hdistinct.2.2 hmem List.mem_cons_self
  obtain ⟨c', hrun, hc'⟩ := hc.addInterface hnew
  exact ⟨c', hrun, by simpa using hc'⟩

/-- Constructors of different descriptors are declared, behind what is no descriptor. -/
theorem exists_declareConstructors (h : c.HasOutline o) (l : List ConstructorDeclaration)
    (hdistinct : (l.map ConstructorDeclaration.descriptor).Nodup)
    (htexts : ∀ text ∈ o.texts, '(' ∉ text.toList) :
    ∃ c', (l.forM declareConstructor).run.run c = (.ok (), c') ∧
      c'.HasOutline { o with
        methods := o.methods ++ l.map constructorOutline
        texts := o.texts ++ l.flatMap fun c => [constructorName, c.descriptor] } := by
  refine exists_run_forM (P := fun done c => c.HasOutline { o with
    methods := o.methods ++ done.map constructorOutline
    texts := o.texts ++ done.flatMap fun c => [constructorName, c.descriptor] })
    (by simpa using h) ?_
  intro done k rest hl c hc
  subst hl
  have hparenthesis : '(' ∈ k.descriptor.toList := by
    rw [ConstructorDeclaration.descriptor, methodDescriptor_eq_cons]
    exact List.mem_cons_self
  have hnew : k.descriptor ∉
      o.texts ++ done.flatMap fun c => [constructorName, c.descriptor] := by
    simp only [List.mem_append, List.mem_flatMap, List.mem_cons, List.not_mem_nil, or_false]
    rintro (hmem | ⟨k', hk', hname | hsame⟩)
    · exact htexts _ hmem hparenthesis
    · rw [hname] at hparenthesis
      revert hparenthesis
      decide
    · rw [List.map_append, List.map_cons, List.nodup_append'] at hdistinct
      exact hdistinct.2.2 (List.mem_map_of_mem hk') (hsame ▸ List.mem_cons_self)
  have hstep : ∃ c', (declareConstructor k).run.run c = (.ok (), c') ∧ c'.HasOutline { o with
      methods := o.methods ++ done.map constructorOutline ++ [constructorOutline k]
      texts := (o.texts ++ done.flatMap fun c => [constructorName, c.descriptor]) ++
        [constructorName, k.descriptor] } := hc.declareMethod (hc.hasMethod_eq_false hnew)
  obtain ⟨c', hrun, hc'⟩ := hstep
  exact ⟨c', hrun, by simpa using hc'⟩

/-- Behind constructors, the class has a method if a method of its key was declared. -/
theorem any_methodOutline {m : MethodDeclaration} (hm : m.IsPlain) {others : List MethodOutline}
    (hothers : ∀ s ∈ others, s.name = constructorName) {l : List MethodDeclaration}
    (hl : ∀ other ∈ l, other.IsPlain) :
    ((others ++ l.map methodOutline).any fun s =>
      s.name == m.name && s.descriptor == m.descriptor) = l.any fun other => m.key == other.key := by
  rw [Bool.eq_iff_iff, List.any_eq_true, List.any_eq_true]
  simp only [List.mem_append, List.mem_map, Bool.and_eq_true, beq_iff_eq]
  constructor
  · rintro ⟨s, hs | ⟨other, hother, rfl⟩, hname, hdescriptor⟩
    · exact absurd (hname.symm.trans (hothers s hs)) hm.notConstructor
    · exact ⟨other, hother,
        (hm.key_eq_iff (hl other hother)).mpr ⟨hname.symm, hdescriptor.symm⟩⟩
  · rintro ⟨other, hother, hkey⟩
    obtain ⟨hname, hdescriptor⟩ := (hm.key_eq_iff (hl other hother)).mp hkey
    exact ⟨methodOutline other, .inr ⟨other, hother, rfl⟩, hname.symm, hdescriptor.symm⟩

/-- Of the methods of a key, the first one is declared. -/
theorem exists_declareMethods (h : c.HasOutline o) (l : List MethodDeclaration)
    (hplain : ∀ m ∈ l, m.IsPlain) (hconstructors : ∀ s ∈ o.methods, s.name = constructorName) :
    ∃ c', (l.forM declareMethod).run.run c = (.ok (), c') ∧
      c'.HasOutline { o with
        methods := o.methods ++
          (l.eraseDupsBy fun m other => m.key == other.key).map methodOutline
        texts := o.texts ++ l.flatMap fun m => [m.name, m.descriptor] } := by
  refine exists_run_forM (P := fun done c => c.HasOutline { o with
    methods := o.methods ++
      (done.eraseDupsBy fun m other => m.key == other.key).map methodOutline
    texts := o.texts ++ done.flatMap fun m => [m.name, m.descriptor] }) (by simpa using h) ?_
  intro done m rest hl c hc
  subst hl
  have hstep : ∃ c', (declareMethod m).run.run c = (.ok (), c') ∧ c'.HasOutline { o with
      methods :=
        let methods := o.methods ++
          (done.eraseDupsBy fun m other => m.key == other.key).map methodOutline
        if methods.any fun s => s.name == m.name && s.descriptor == m.descriptor then methods
        else methods ++ [methodOutline m]
      texts := (o.texts ++ done.flatMap fun m => [m.name, m.descriptor]) ++
        [m.name, m.descriptor] } :=
    hc.declareMethod_unless (methodFlags m) m.name m.paramTypes m.returnType
  obtain ⟨c', hrun, hc'⟩ := hstep
  have hkept : ∀ other ∈ done.eraseDupsBy fun m other => m.key == other.key, other.IsPlain :=
    fun other hother =>
      hplain other (List.mem_append_left _ ((eraseDupsBy_sublist _ done).subset hother))
  have hthere := any_methodOutline (hplain m (by simp)) hconstructors hkept
  refine ⟨c', hrun, ?_⟩
  rw [eraseDupsBy_concat]
  simp only [hthere] at hc'
  split_ifs at hc' ⊢ <;> simpa using hc'

/-! ### The stub -/

/-- An abstract class says so in its flags. -/
theorem exists_declareAbstract (h : c.HasOutline o) (d : TypeDeclaration) :
    ∃ c', (do if d.isAbstract then setFlags ((← get).file.flags ||| AccessFlags.isAbstract) :
        Edit Unit).run.run c = (.ok (), c') ∧
      c'.HasOutline { o with
        flags := o.flags ||| if d.isAbstract then AccessFlags.isAbstract else 0 } := by
  cases d.isAbstract with
  | true =>
    obtain ⟨c', hrun, hc'⟩ := h.setFlags (c.file.flags ||| AccessFlags.isAbstract)
    exact ⟨c', hrun, h.flags ▸ hc'⟩
  | false => exact ⟨c, rfl, by simpa using h⟩

/-- A class without a superclass keeps the one it has. -/
theorem exists_declareSuperclass (h : c.HasOutline o) (d : TypeDeclaration) :
    ∃ c', (do if let some t := d.superclass then setSuperclass t : Edit Unit).run.run c =
        (.ok (), c') ∧
      c'.HasOutline { o with
        superName := d.superclass.elim o.superName TypeName.internalName
        texts := o.texts ++ d.superclass.toList.map TypeName.internalName } := by
  cases d.superclass with
  | some t => exact h.setSuperclass t
  | none => exact ⟨c, rfl, by simpa using h⟩

theorem IsPlain.name_eq (h : d.IsPlain) : d.name = ⟨d.qualifiedName⟩ :=
  TypeName.ofText_of_isErased (TypeName.isErased_iff.mpr fun c hc => (h.name.letters c hc).2.2)

theorem IsPlain.nodup_internalNames (h : d.IsPlain) :
    (d.interfaces.map TypeName.internalName).Nodup := by
  refine h.interfaces.map_on fun t ht s hs hsame => ?_
  have hplain : ∀ t ∈ d.interfaces, IsClassName t.text := fun t ht =>
    (h.supertypes t (List.mem_append_right _ ht)).toIsClassName
  rw [← TypeName.ofInternal_internalName (hplain t ht), hsame,
    TypeName.ofInternal_internalName (hplain s hs)]

theorem exists_declareSupertypes (h : d.IsPlain) (major : UInt16) :
    ∃ c', d.declareSupertypes.run.run
        (if d.isInterface then .newInterface d.name major else .newClass d.name major) =
        (.ok (), c') ∧
      c'.HasOutline { d.outline with methods := [], texts := d.headTexts } := by
  have hobject : objectInternalName = TypeName.object.internalName := by decide
  cases hkind : d.isInterface with
  | true =>
    have hnew := hasOutline_ofNames d.name major
      (AccessFlags.isPublic ||| AccessFlags.isInterface ||| AccessFlags.isAbstract)
      d.name.internalName objectInternalName
    obtain ⟨c', hrun, hc'⟩ := exists_addInterfaces hnew d.interfaces h.nodup_internalNames
    refine ⟨c', ?_, ?_⟩
    · unfold declareSupertypes
      rw [hkind]
      exact hrun
    · simpa [outline, stubFlags, stubSuperclass, headTexts, hkind, hobject] using hc'
  | false =>
    have hnew := hasOutline_ofNames d.name major (AccessFlags.isPublic ||| AccessFlags.isSuper)
      d.name.internalName objectInternalName
    obtain ⟨c₁, hfirst, hc₁⟩ := exists_declareAbstract hnew d
    obtain ⟨c₂, hsecond, hc₂⟩ := exists_declareSuperclass hc₁ d
    obtain ⟨c', hrun, hc'⟩ := exists_addInterfaces hc₂ d.interfaces h.nodup_internalNames
    refine ⟨c', ?_, ?_⟩
    · have hsame : d.declareSupertypes = (do
          (do if d.isAbstract then setFlags ((← get).file.flags ||| AccessFlags.isAbstract))
          (do if let some t := d.superclass then setSuperclass t)
          d.interfaces.forM addInterface) := by
        unfold declareSupertypes
        rw [hkind]
        cases d.isAbstract <;> cases d.superclass <;> rfl
      rw [hsame]
      exact (run_bind_of_ok hfirst).trans ((run_bind_of_ok hsecond).trans hrun)
    · have hsuper : d.superclass.elim objectInternalName TypeName.internalName =
          (d.superclass.getD .object).internalName := by
        cases d.superclass with
        | some t => rfl
        | none => exact hobject
      simpa [outline, stubFlags, stubSuperclass, headTexts, supertypes, hkind, hsuper] using hc'

theorem IsPlain.not_mem_headTexts (h : d.IsPlain) : ∀ text ∈ d.headTexts, '(' ∉ text.toList := by
  intro text htext
  rw [headTexts, List.mem_append] at htext
  obtain hself | hsuper := htext
  · obtain rfl | rfl : text = d.name.internalName ∨ text = objectInternalName := by
      simpa using hself
    · exact TypeName.not_mem_internalName (h.name_eq ▸ h.name.noParenthesis)
    · decide
  · obtain ⟨t, ht, rfl⟩ := List.mem_map.mp hsuper
    have hmem : t ∈ d.supertypes := by
      split_ifs at ht
      · exact List.mem_append_right _ ht
      · exact ht
    exact TypeName.not_mem_internalName (h.supertypes t hmem).noParenthesis

theorem IsPlain.nodup_effectiveConstructors (h : d.IsPlain) :
    (d.effectiveConstructors.map ConstructorDeclaration.descriptor).Nodup := by
  unfold effectiveConstructors
  split_ifs
  · exact .nil
  · exact List.nodup_singleton _
  · exact h.constructors

/-- A plain declaration has a stub, and the stub shows its outline. -/
theorem exists_toStub (h : d.IsPlain) (major : UInt16) :
    ∃ unit, d.toStub major = .ok unit ∧ unit.HasOutline d.outline := by
  obtain ⟨c₁, hsupertypes, hc₁⟩ := exists_declareSupertypes h major
  obtain ⟨c₂, hconstructors, hc₂⟩ := exists_declareConstructors hc₁ d.effectiveConstructors
    h.nodup_effectiveConstructors h.not_mem_headTexts
  obtain ⟨unit, hmethods, hunit⟩ := exists_declareMethods hc₂ d.methods h.methods (by
    simp [constructorOutline])
  refine ⟨unit, ?_, hunit⟩
  have hrun : d.declareAll.run.run
      (if d.isInterface then .newInterface d.name major else .newClass d.name major) =
      (.ok (), unit) :=
    (run_bind_of_ok hsupertypes).trans ((run_bind_of_ok hconstructors).trans hmethods)
  rw [toStub, runEdit]
  simp only [hrun]
  rfl

end TypeDeclaration

end ClassSynth
