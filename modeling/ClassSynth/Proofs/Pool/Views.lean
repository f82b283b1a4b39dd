import ClassSynth.Proofs.Pool.Stubs
import Mathlib

/-!
# Declarations seen through stubs

The declaration of a class file that shows a plain declaration is known in full
(`TypeDeclaration.ofClassFile_of_shown`): what other classes look up is as declared, but directives,
names of parameters and the source are gone. So a declaration that goes through its stub and through
the bytes of it comes back as far as other classes see it, if it has no more constants, methods and
letters than can be counted.

Main result: `TypeDeclaration.seen_through_stub`.
-/

namespace ClassSynth

open ClassUnit

/-! ## Reading what is shown -/

@[simp] theorem map_type_positionalParams (types : List TypeName) :
    (positionalParams types).map Parameter.type = types := by
  rw [positionalParams, List.map_map]
  exact List.zipIdx_map_fst 0 types

/-- The method as it is read: its parameters have the names of their positions. -/
def MethodDeclaration.seen (m : MethodDeclaration) : MethodDeclaration where
  name := m.name
  returnType := m.returnType
  params := positionalParams m.paramTypes
  isAbstract := m.isAbstract
  isStatic := m.isStatic

def ConstructorDeclaration.seen (c : ConstructorDeclaration) : ConstructorDeclaration where
  params := positionalParams c.paramTypes

namespace TypeDeclaration

variable {d : TypeDeclaration} {f : ClassFile}

/-- The declaration as it is read from its stub. -/
def seen (d : TypeDeclaration) : TypeDeclaration where
  qualifiedName := d.qualifiedName
  kind := d.kind
  isAbstract := d.isInterface || d.isAbstract
  superclass := if d.isInterface then none else some d.stubSuperclass
  interfaces := d.interfaces
  methods := d.keptMethods.map MethodDeclaration.seen
  constructors := d.effectiveConstructors.map ConstructorDeclaration.seen
  isLibrary := true

theorem has_stubFlags (d : TypeDeclaration) :
    AccessFlags.has d.stubFlags AccessFlags.isInterface = d.isInterface ∧
      AccessFlags.has d.stubFlags AccessFlags.isAbstract = (d.isInterface || d.isAbstract) := by
  unfold stubFlags
  cases d.isInterface <;> cases d.isAbstract <;> decide

theorem has_methodFlags (m : MethodDeclaration) :
    AccessFlags.has (methodFlags m) AccessFlags.isSynthetic = false ∧
      AccessFlags.has (methodFlags m) AccessFlags.isPrivate = false ∧
      AccessFlags.has (methodFlags m) AccessFlags.isAbstract = m.isAbstract ∧
      AccessFlags.has (methodFlags m) AccessFlags.isStatic = m.isStatic := by
  unfold methodFlags
  cases m.isAbstract <;> cases m.isStatic <;> decide

/-- A method that shows a plain method is read as it. -/
theorem ofInfo_method {m : MethodDeclaration} (hplain : m.IsPlain) {pool : ConstantPool}
    {info : MemberInfo} (hflags : info.flags = methodFlags m)
    (hname : pool.utf8 info.name = .ok m.name)
    (hdescriptor : pool.utf8 info.descriptor = .ok m.descriptor) :
    VisibleMethod.ofInfo pool info = .ok (some (.method m.seen)) := by
  obtain ⟨hsynthetic, hprivate, habstract, hstatic⟩ := has_methodFlags m
  have hparse : parseMethodDescriptor m.descriptor = .ok (m.paramTypes, m.returnType) :=
    Descriptor.parse_described (fun t ht => (hplain.params t ht).described)
      hplain.returnType.described
  simp [VisibleMethod.ofInfo, hflags, hsynthetic, hprivate, habstract, hstatic, hname, hdescriptor,
    hparse, hplain.notConstructor, hplain.notInitializer, MethodDeclaration.seen, bind,
    Except.bind, pure, Except.pure]

/-- A method that shows a constructor is read as it. -/
theorem ofInfo_constructor {c : ConstructorDeclaration} (hplain : ∀ t ∈ c.paramTypes, t.IsPlain)
    {pool : ConstantPool} {info : MemberInfo}
    (hflags : info.flags = AccessFlags.isPublic ||| AccessFlags.isNative)
    (hname : pool.utf8 info.name = .ok constructorName)
    (hdescriptor : pool.utf8 info.descriptor = .ok c.descriptor) :
    VisibleMethod.ofInfo pool info = .ok (some (.constructor c.seen)) := by
  have hvisible : (AccessFlags.has (AccessFlags.isPublic ||| AccessFlags.isNative)
      AccessFlags.isSynthetic || AccessFlags.has (AccessFlags.isPublic ||| AccessFlags.isNative)
      AccessFlags.isPrivate) = false := by decide
  have hparse : parseMethodDescriptor c.descriptor = .ok (c.paramTypes, .void) :=
    Descriptor.parse_described (fun t ht => (hplain t ht).described) (.inl rfl)
  have hother : constructorName ≠ initializerName := by decide
  rw [VisibleMethod.ofInfo, hflags, if_neg (Bool.eq_false_iff.mp hvisible)]
  simp [hname, hdescriptor, hparse, hother, ConstructorDeclaration.seen, bind, Except.bind, pure,
    Except.pure]

theorem IsPlain.effectiveConstructors (h : d.IsPlain) :
    ∀ c ∈ d.effectiveConstructors, ∀ t ∈ c.paramTypes, t.IsPlain := by
  intro c hc
  unfold TypeDeclaration.effectiveConstructors at hc
  split_ifs at hc
  · cases hc
  · obtain rfl := List.mem_singleton.mp hc
    exact fun _ ht => nomatch ht
  · exact h.constructorTypes c hc

theorem IsPlain.keptMethods (h : d.IsPlain) : ∀ m ∈ d.keptMethods, m.IsPlain :=
  fun m hm => h.methods m ((eraseDupsBy_sublist _ _).subset hm)

/-- What is shown of the methods is read as constructors, then as methods. -/
theorem filterMapM_ofInfo (hplain : d.IsPlain) (h : f.ShownIn f.pool d.outline) :
    f.methods.filterMapM (VisibleMethod.ofInfo f.pool) =
      .ok (d.effectiveConstructors.map (fun c => .constructor c.seen) ++
        d.keptMethods.map fun m => .method m.seen) := by
  have hconstructors := List.forall₂_take_append _ _ _ h.methods
  have hmethods := List.forall₂_drop_append _ _ _ h.methods
  rw [List.forall₂_map_right_iff] at hconstructors hmethods
  refine Checked.filterMapM_eq_ok ?_
  rw [← List.take_append_drop (d.effectiveConstructors.map constructorOutline).length f.methods]
  refine List.rel_append (List.forall₂_map_right_iff.mpr ?_) (List.forall₂_map_right_iff.mpr ?_)
  · have hall := (List.forall₂_and_left _ _).mpr
      ⟨hplain.effectiveConstructors, hconstructors.flip⟩
    exact hall.flip.imp fun info c ⟨hc, hflags, hname, hdescriptor⟩ =>
      ofInfo_constructor hc hflags hname hdescriptor
  · have hall := (List.forall₂_and_left _ _).mpr ⟨hplain.keptMethods, hmethods.flip⟩
    exact hall.flip.imp fun info m ⟨hm, hflags, hname, hdescriptor⟩ =>
      ofInfo_method hm hflags hname hdescriptor

theorem superName?_of_shown (h : f.ShownIn f.pool d.outline) :
    f.superName? = .ok (some d.stubSuperclass.internalName) := by
  have hnonzero : f.superClass ≠ 0 := by
    intro hzero
    have hname := h.superName
    rw [hzero] at hname
    cases hname
  rw [ClassFile.superName?, if_neg hnonzero, h.superName]
  rfl

/-! ### Names that are read back -/

theorem IsPlain.isClassName (h : d.IsPlain) : IsClassName d.name.text :=
  h.name_eq ▸ h.name.toIsClassName

theorem IsPlain.qualifiedName_eq (h : d.IsPlain) :
    replaceChar '/' '.' d.name.internalName = d.qualifiedName := by
  have htext := congrArg TypeName.text (TypeName.ofInternal_internalName h.isClassName)
  rwa [h.name_eq] at htext ⊢

theorem IsPlain.ofInternal_supertype (h : d.IsPlain) {t : TypeName} (ht : t ∈ d.supertypes) :
    TypeName.ofInternal t.internalName = t :=
  TypeName.ofInternal_internalName (h.supertypes t ht).toIsClassName

theorem IsPlain.ofInternal_interfaces (h : d.IsPlain) :
    (d.interfaces.map TypeName.internalName).map TypeName.ofInternal = d.interfaces := by
  rw [List.map_map]
  exact (List.map_congr_left fun t ht =>
    h.ofInternal_supertype (List.mem_append_right _ ht)).trans (List.map_id _)

theorem IsPlain.ofInternal_stubSuperclass (h : d.IsPlain) :
    TypeName.ofInternal d.stubSuperclass.internalName = d.stubSuperclass := by
  unfold stubSuperclass
  cases hsuperclass : d.superclass with
  | some t =>
    split_ifs
    · decide
    · exact h.ofInternal_supertype (by simp [TypeDeclaration.supertypes, hsuperclass])
  | none => split_ifs <;> decide

/-- **The declaration of a class that shows a plain declaration.** -/
theorem ofClassFile_of_shown (hplain : d.IsPlain) (hflags : f.flags = d.stubFlags)
    (h : f.ShownIn f.pool d.outline) : ofClassFile f = .ok d.seen := by
  have hname : f.thisName = .ok d.name.internalName := h.name
  have hinterfaces : f.interfaceNames = .ok (d.interfaces.map TypeName.internalName) :=
    Checked.mapM_eq_ok.mpr h.interfaces
  obtain ⟨hinterface, habstract⟩ := d.has_stubFlags
  have hkind : (if d.isInterface then TypeKind.interfaceKind else .classKind) = d.kind := by
    unfold isInterface
    cases d.kind <;> rfl
  have hconstructors : (d.effectiveConstructors.map (fun c => VisibleMethod.constructor c.seen) ++
      d.keptMethods.map fun m => VisibleMethod.method m.seen).filterMap
        VisibleMethod.constructor? = d.effectiveConstructors.map ConstructorDeclaration.seen := by
    simp [List.filterMap_append, List.filterMap_map, Function.comp_def,
      VisibleMethod.constructor?]
  have hmethods : (d.effectiveConstructors.map (fun c => VisibleMethod.constructor c.seen) ++
      d.keptMethods.map fun m => VisibleMethod.method m.seen).filterMap
        VisibleMethod.method? = d.keptMethods.map MethodDeclaration.seen := by
    simp [List.filterMap_append, List.filterMap_map, Function.comp_def, VisibleMethod.method?]
  unfold ofClassFile
  simp only [hflags, hinterface, habstract, hname, superName?_of_shown h, hinterfaces,
    filterMapM_ofInfo hplain h, bind, Except.bind, pure, Except.pure]
  rw [hplain.qualifiedName_eq, hplain.ofInternal_interfaces, hkind, hconstructors, hmethods,
    Option.map_some, hplain.ofInternal_stubSuperclass]
  rfl

/-! ## Agreement -/

/-- The view says of the declared type what other classes look up. -/
structure Agrees (view d : TypeDeclaration) : Prop where
  name : view.qualifiedName = d.qualifiedName
  kind : view.kind = d.kind
  interfaces : view.interfaces = d.interfaces
  superclass : view.superclass = if d.isInterface then none else some (d.superclass.getD .object)
  constructors : view.constructors.map ConstructorDeclaration.paramTypes =
    d.effectiveConstructors.map ConstructorDeclaration.paramTypes
  methods : List.Forall₂ (fun seen m => seen.name = m.name ∧ seen.paramTypes = m.paramTypes ∧
    seen.returnType = m.returnType ∧ seen.isAbstract = m.isAbstract ∧ seen.isStatic = m.isStatic)
    view.methods d.keptMethods

theorem agrees_seen (d : TypeDeclaration) : d.seen.Agrees d where
  name := rfl
  kind := rfl
  interfaces := rfl
  superclass := by
    unfold seen stubSuperclass
    cases d.isInterface <;> rfl
  constructors := by
    rw [seen, List.map_map]
    exact List.map_congr_left fun c _ => map_type_positionalParams c.paramTypes
  methods := by
    rw [seen, List.forall₂_map_left_iff, List.forall₂_same]
    exact fun m _ => ⟨rfl, map_type_positionalParams m.paramTypes, rfl, rfl, rfl⟩

/-- The stub of the declaration can be written, and what is read from its bytes agrees with the
declaration. -/
def IsSeenThroughStub (d : TypeDeclaration) (major : UInt16) : Prop :=
  ∃ unit bytes file view, d.toStub major = .ok unit ∧ unit.toBytes = .ok bytes ∧
    ClassFile.parse bytes = .ok file ∧ ofClassFile file = .ok view ∧ view.Agrees d

/-- **A declaration is seen through its stub.** A plain declaration has a stub. If the stub has more
constants than can be counted, it cannot be written. Otherwise what is read from its bytes agrees
with the declaration, if no text and not the list of methods is too long for its count. -/
theorem seen_through_stub (hplain : d.IsPlain) (major : UInt16) :
    ∃ unit, d.toStub major = .ok unit ∧ unit.file.pool.count ≤ 2 * d.texts.length + 1 ∧
      (65535 < unit.file.pool.count → unit.toBytes = .error (.classFormat .outOfSpace)) ∧
      (unit.file.pool.count ≤ 65535 →
        (∀ text ∈ d.texts, (ModifiedUtf8.encode text).length ≤ 65535) →
        d.effectiveConstructors.length + d.keptMethods.length ≤ 65535 →
        d.IsSeenThroughStub major) := by
  obtain ⟨unit, hstub, hunit⟩ := exists_toStub hplain major
  refine ⟨unit, hstub, Nat.add_le_add_right hunit.mentions.size 1, HasOutline.toBytes_of_lt, ?_⟩
  intro hcount htexts hmethods
  obtain ⟨bytes, hbytes, hparse⟩ := hunit.exists_toBytes hcount hplain.nodup_internalNames htexts
    (by simpa [outline] using hmethods)
  have hshown := hunit.shown _ (.refl _) (Nat.le_of_succ_le hcount)
  exact ⟨unit, bytes, unit.file, d.seen, hstub, hbytes, hparse,
    ofClassFile_of_shown hplain hunit.flags hshown, d.agrees_seen⟩

/-- A class with a method that is declared twice. -/
def counter : TypeDeclaration where
  qualifiedName := "demo.Counter"
  kind := .classKind
  isAbstract := true
  interfaces := [⟨"demo.Source"⟩]
  methods := [
    { name := "next", returnType := .ofPrimitive .int, isAbstract := true },
    { name := "of", returnType := ⟨"demo.Counter"⟩, isStatic := true
      params := [{ name := "start", type := .ofPrimitive .int }] },
    { name := "next", returnType := .ofPrimitive .int }]

theorem isPlain_counter : counter.IsPlain where
  name := ⟨⟨@of_decide_eq_true _ (List.decidableBAll _ _) rfl, by decide, by decide⟩, by decide⟩
  supertypes := by
    intro t ht
    obtain rfl : t = ⟨"demo.Source"⟩ := List.mem_singleton.mp ht
    exact ⟨⟨@of_decide_eq_true _ (List.decidableBAll _ _) rfl, by decide, by decide⟩, by decide⟩
  interfaces := by decide
  constructorTypes := fun _ h => nomatch h
  constructors := .nil
  methods := by
    have hint : (TypeName.ofPrimitive .int).IsPlain := ⟨.inr (.primitive .int), by decide⟩
    have hself : (⟨"demo.Counter"⟩ : TypeName).IsPlain :=
      ⟨.inr (.ofClass ⟨@of_decide_eq_true _ (List.decidableBAll _ _) rfl, by decide, by decide⟩),
        by decide⟩
    intro m hm
    simp only [counter, List.mem_cons, List.not_mem_nil, or_false] at hm
    obtain rfl | rfl | rfl := hm
    · exact ⟨(fun _ h => nomatch h), hint, by decide, by decide⟩
    · exact ⟨fun t ht => List.mem_singleton.mp ht ▸ hint, hself, by decide, by decide⟩
    · exact ⟨(fun _ h => nomatch h), hint, by decide, by decide⟩

/-- The second one is not seen. -/
theorem seen_through_stub_counter : counter.IsPlain ∧ counter.keptMethods.length = 2 ∧
    counter.IsSeenThroughStub 52 := by
  obtain ⟨unit, -, hcount, -, hseen⟩ := seen_through_stub isPlain_counter 52
  refine ⟨isPlain_counter, by decide, hseen (hcount.trans (by decide)) (by decide) (by decide)⟩
end TypeDeclaration

/-! ## Too many names

A supertype takes two constants, so there are less than 32768 interfaces in a class file.
-/

theorem isBlank_of_isAlphanum {c : Char} (h : c.isAlphanum = true) : isBlank c = false := by
  have hrange : 48 ≤ c.toNat ∧ c.toNat ≤ 122 := by
    simp only [Char.isAlphanum, Char.isAlpha, Char.isUpper, Char.isLower, Char.isDigit,
      Bool.or_eq_true, Bool.and_eq_true, decide_eq_true_eq, UInt32.le_iff_toNat_le, ge_iff_le] at h
    have hval : c.toNat = c.val.toNat := rfl
    simp at h
    omega
  simp [isBlank, CharRange.anyContains, blankRanges, CharRange.ofPairs, CharRange.contains]
  omega

/-- Letters and digits make a class name. -/
theorem isPlainClass_of_alphanum {name : String} (hletters : ∀ c ∈ name.toList, c.isAlphanum = true)
    (hvoid : name ≠ "void") : IsPlainClass name where
  letters := by
    intro c hc
    have hother : ∀ c' : Char, c'.isAlphanum = false → c ≠ c' := by
      rintro c' hfalse rfl
      rw [hletters c hc] at hfalse
      cases hfalse
    exact ⟨hother _ (by decide), hother _ (by decide), hother _ (by decide),
      isBlank_of_isAlphanum (hletters c hc)⟩
  dimensions := fun ⟨before, hbefore⟩ => by
    have hmem : ']' ∈ name.toList := hbefore ▸ by simp
    exact absurd (hletters _ hmem) (by decide)
  notVoid := hvoid
  noParenthesis := fun hmem => absurd (hletters _ hmem) (by decide)

namespace TypeDeclaration

variable {d : TypeDeclaration}

theorem not_isSeen_of_interfaces (hplain : d.IsPlain) (hmany : 32768 ≤ d.interfaces.length)
    (major : UInt16) : ¬ d.IsSeenThroughStub major := by
  rintro ⟨unit, bytes, file, view, hstub, hbytes, -⟩
  obtain ⟨unit', hstub', hunit⟩ := exists_toStub hplain major
  obtain rfl := Except.ok.inj (hstub.symm.trans hstub')
  by_cases hcount : 65535 < unit.file.pool.count
  · rw [HasOutline.toBytes_of_lt hcount] at hbytes
    cases hbytes
  · have hle := hunit.two_mul_interfaces_le (Nat.le_of_succ_le (Nat.le_of_not_lt hcount))
      hplain.nodup_internalNames
    rw [outline, List.length_map] at hle
    rw [ConstantPool.count] at hcount
    omega

/-- An interface that extends the given number of others. -/
def extending (n : Nat) : TypeDeclaration where
  qualifiedName := "I"
  interfaces := (List.range n).map fun i => ⟨"I" ++ toString i⟩

theorem isPlain_extending (n : Nat) : (extending n).IsPlain where
  name := by
    have hname : IsPlainClass "I" := by
      refine isPlainClass_of_alphanum (fun c hc => ?_) (by decide)
      obtain rfl : c = 'I' := by simpa using hc
      decide
    exact hname
  supertypes := by
    intro t ht
    obtain ⟨i, -, rfl⟩ := List.mem_map.mp ht
    have htext : ("I" ++ toString i).toList = 'I' :: Nat.toDigits 10 i := by
      rw [String.toList_append]
      exact congrArg _ String.toList_ofList
    refine isPlainClass_of_alphanum ?_ ?_
    · intro c hc
      rw [htext, List.mem_cons] at hc
      obtain rfl | hc := hc
      · decide
      · have hdigit := Nat.isDigit_of_mem_toDigits (by decide) (by decide) hc
        simp [Char.isAlphanum, hdigit]
    · intro hvoid
      have hchars := congrArg String.toList hvoid
      rw [htext] at hchars
      cases hchars
  interfaces := by
    refine List.nodup_range.map fun i j hij => ?_
    have htext : "I" ++ toString i = "I" ++ toString j := congrArg TypeName.text hij
    have hnumeral : i.repr = j.repr := (String.append_right_inj _).mp htext
    exact Nat.repr_inj.mp hnumeral
  constructorTypes := fun _ h => nomatch h
  constructors := .nil
  methods := fun _ h => nomatch h

end TypeDeclaration

/-! ## Names that are too long

The length of a text is written in two bytes whatever it is. If the last two bytes of the length are
zero, an empty text is read, and then what stands in the text.
-/

theorem encode_replicate (n : Nat) :
    ModifiedUtf8.encode (String.ofList (List.replicate n 'a')) = List.replicate n 97 := by
  have hunits : Utf16.encodeChar 'a' = [97] := by decide
  have hbytes : ModifiedUtf8.encodeUnit 97 = [97] := by decide
  rw [ModifiedUtf8.encode, Utf16.encode]
  simp [List.flatMap_replicate, hunits, hbytes]

namespace ClassFile

variable {flags : UInt16} {name superName : String} {n : Nat}

/-- The name of a class is its first constant. -/
theorem slots_ofNames (major flags : UInt16) (thisName superName : String) :
    ∃ more, (ofNames major flags thisName superName).pool.slots.toList =
      some (.utf8 thisName) :: some (.classRef 1) :: more ∧ more.length ≤ 2 := by
  have hfirst : ((ConstantPool.addClass thisName).run .empty).2.slots.toList =
      [some (.utf8 thisName), some (.classRef 1)] := by
    have hname : ConstantPool.empty.add (.utf8 thisName) =
        ConstantPool.empty.push (.utf8 thisName) := ConstantPool.add_of_not_mem List.not_mem_nil
    change ((ConstantPool.empty.add (.utf8 thisName)).2.add
      (.classRef (ConstantPool.empty.add (.utf8 thisName)).1)).2.slots.toList = _
    rw [hname, ConstantPool.add_of_not_mem]
    · rfl
    · simp [ConstantPool.push, ConstantPool.slotsOf, ConstantPool.empty, Constant.isWide]
  obtain ⟨more, hmore⟩ := (ConstantPool.adds_class superName
    ((ConstantPool.addClass thisName).run .empty).2).1.slots
  rw [hfirst] at hmore
  refine ⟨more, hmore.symm, ?_⟩
  have hsize := ((ConstantPool.mentions_empty.addClass thisName).addClass superName).size
  have hlength := congrArg List.length hmore
  simp at hlength hsize
  omega

theorem toBytes_overlong (hname : ModifiedUtf8.encode name = List.replicate (n + 1) 97)
    (hcount : (n + 1).toUInt16 = 0) :
    (Constant.utf8 name).toBytes = 1 :: 0 :: 0 :: 97 :: List.replicate n 97 := by
  rw [Constant.toBytes, Constant.payload, hname, List.length_replicate, Bytes.ofCount, hcount]
  rfl

/-- There is no constant with the tag 97. -/
theorem parse_overlong {count : Nat} (hcount : count = 3 ∨ count = 4 ∨ count = 5) (rest : Bytes) :
    ∃ e, parse (Bytes.ofU32 classFileMagic ++ (Bytes.ofU16 0 ++ (Bytes.ofU16 52 ++
      (Bytes.ofCount count ++ 1 :: 0 :: 0 :: 97 :: rest)))) = .error e := by
  obtain rfl | rfl | rfl := hcount
  · exact ⟨_, rfl⟩
  · exact ⟨_, rfl⟩
  · exact ⟨_, rfl⟩

theorem not_parse_ofNames (hname : ModifiedUtf8.encode name = List.replicate (n + 1) 97)
    (hcount : (n + 1).toUInt16 = 0) {bytes : Bytes}
    (hbytes : (ofNames 52 flags name superName).toBytes = .ok bytes) :
    ∃ e, parse bytes = .error e := by
  obtain ⟨more, hslots, hmore⟩ := slots_ofNames 52 flags name superName
  have hsize : (ofNames 52 flags name superName).pool.count = more.length + 3 := by
    rw [ConstantPool.count, ← Array.length_toList, hslots]
    rfl
  obtain ⟨rest, hrest⟩ : ∃ rest, (ofNames 52 flags name superName).pool.toBytes =
      .ok (Bytes.ofCount (more.length + 3) ++ 1 :: 0 :: 0 :: 97 :: rest) := by
    rw [ConstantPool.toBytes, if_neg (by omega), hslots, hsize, List.flatMap_cons]
    simp only [toBytes_overlong hname hcount]
    exact ⟨_, rfl⟩
  have hattributes : ¬ (ofNames 52 flags name superName).attributes.length > 65535 :=
    Nat.not_lt_zero 65535
  rw [toBytes_eq hrest, if_neg hattributes] at hbytes
  obtain rfl := Except.ok.inj hbytes
  rw [List.append_assoc]
  exact parse_overlong (by omega) _

end ClassFile

namespace TypeDeclaration

/-- An interface with a name of the given length. -/
def longNamed (n : Nat) : TypeDeclaration where
  qualifiedName := String.ofList (List.replicate n 'a')

theorem isPlain_longNamed (n : Nat) : (longNamed n).IsPlain where
  name := by
    refine isPlainClass_of_alphanum ?_ ?_
    · intro c hc
      rw [longNamed, String.toList_ofList] at hc
      rw [List.eq_of_mem_replicate hc]
      decide
    · intro hvoid
      have hmem : 'v' ∈ List.replicate n 'a' := by
        rw [← String.toList_ofList (l := List.replicate n 'a')]
        change 'v' ∈ (longNamed n).qualifiedName.toList
        rw [hvoid]
        decide
      cases List.eq_of_mem_replicate hmem
  supertypes := fun _ h => nomatch h
  interfaces := .nil
  constructorTypes := fun _ h => nomatch h
  constructors := .nil
  methods := fun _ h => nomatch h

theorem not_isSeen_longNamed {n : Nat} (hcount : (n + 1).toUInt16 = 0) :
    ¬ (longNamed (n + 1)).IsSeenThroughStub 52 := by
  rintro ⟨unit, bytes, file, view, hstub, hbytes, hparse, -⟩
  obtain rfl : newInterface (longNamed (n + 1)).name 52 = unit := Except.ok.inj hstub
  have hname : (longNamed (n + 1)).name.internalName = (longNamed (n + 1)).qualifiedName := by
    have hplain := isPlain_longNamed (n + 1)
    rw [TypeName.internalName_eq hplain.isClassName, hplain.name_eq, replaceChar]
    simp [longNamed]
  have hencode : ModifiedUtf8.encode (longNamed (n + 1)).name.internalName =
      List.replicate (n + 1) 97 := by
    rw [hname]
    exact encode_replicate (n + 1)
  obtain ⟨e, he⟩ := ClassFile.not_parse_ofNames hencode hcount
    (Checked.mapError_eq_ok.mp hbytes)
  rw [he] at hparse
  cases hparse

/-- An interface that extends too many others and one with a name that is too long are not seen. -/
theorem not_isSeen_extending :
    ((extending 32768).IsPlain ∧ ¬ (extending 32768).IsSeenThroughStub 52) ∧
      (longNamed 65536).IsPlain ∧ ¬ (longNamed 65536).IsSeenThroughStub 52 := by
  refine ⟨⟨isPlain_extending _, ?_⟩, isPlain_longNamed _, not_isSeen_longNamed (by decide)⟩
  refine not_isSeen_of_interfaces (isPlain_extending _) ?_ 52
  rw [extending, List.length_map, List.length_range]

end TypeDeclaration

end ClassSynth
