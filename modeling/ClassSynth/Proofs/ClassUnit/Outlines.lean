import ClassSynth.Proofs.ClassFile.Codec
import ClassSynth.Proofs.ClassUnit.Fields

/-!
# Outlines of classes

An outline is what a class without fields and code shows: its names, its supertypes, and the names,
descriptors and flags of its methods. A class has an outline if its indices lead there, in its pool
and in every later one, as long as all constants have indices (`ClassUnit.HasOutline`). Each
operation that declares something extends the outline of the class by it.
-/

namespace ClassSynth

/-! ## Texts of a pool -/

namespace ConstantPool

variable {p : ConstantPool} {texts more : List String}

/-- The texts of the pool are among the given ones, and there are no other constants in it than
these and references to them. -/
structure Mentions (p : ConstantPool) (texts : List String) : Prop where
  built : p.Built
  mem : ∀ text, some (.utf8 text) ∈ p.slots.toList → text ∈ texts
  size : p.slots.size ≤ 2 * texts.length

theorem Mentions.append (h : p.Mentions texts) (more : List String) :
    p.Mentions (texts ++ more) where
  built := h.built
  mem := fun text htext => List.mem_append_left _ (h.mem text htext)
  size := by
    have hsize := h.size
    rw [List.length_append]
    omega

theorem mem_add {c d : Constant} (h : some d ∈ (p.add c).2.slots.toList) :
    some d ∈ p.slots.toList ∨ d = c := by
  unfold add at h
  split at h
  · exact .inl h
  · rw [push, Array.toList_appendList, List.mem_append, slotsOf] at h
    refine h.imp_right fun hnew => ?_
    split_ifs at hnew <;> simpa using hnew

theorem size_add_narrow {c : Constant} (h : c.isWide = false) :
    (p.add c).2.slots.size ≤ p.slots.size + 1 := by
  unfold add
  split
  · exact Nat.le_add_right _ _
  · simp [push, slotsOf, h]

theorem mentions_empty : ConstantPool.empty.Mentions [] where
  built := .empty
  mem := fun _ h => nomatch h
  size := Nat.le_refl _

theorem Mentions.addUtf8 (h : p.Mentions texts) (text : String) :
    ((addUtf8 text).run p).2.Mentions (texts ++ [text]) where
  built := h.built.add _
  mem := fun found hfound => by
    obtain hfound | hsame := mem_add hfound
    · exact List.mem_append_left _ (h.mem found hfound)
    · rw [Constant.utf8.inj hsame]
      simp
  size := by
    have hsize := h.size
    have hone := size_add_narrow (p := p) (c := .utf8 text) rfl
    rw [List.length_append, List.length_singleton]
    change (p.add (.utf8 text)).2.slots.size ≤ _
    omega

theorem Mentions.addClass (h : p.Mentions texts) (name : String) :
    ((addClass name).run p).2.Mentions (texts ++ [name]) := by
  have htext := h.addUtf8 name
  refine ⟨htext.built.add _, fun found hfound => ?_, ?_⟩
  · obtain hfound | hsame := mem_add hfound
    · exact htext.mem found hfound
    · cases hsame
  · have hsize := h.size
    have hfirst := size_add_narrow (p := p) (c := .utf8 name) rfl
    have hsecond := size_add_narrow (p := (p.add (.utf8 name)).2)
      (c := .classRef (p.add (.utf8 name)).1) rfl
    rw [List.length_append, List.length_singleton]
    change ((p.add (.utf8 name)).2.add (.classRef (p.add (.utf8 name)).1)).2.slots.size ≤ _
    omega

end ConstantPool

/-! ## Outlines -/

/-- A method without its code. -/
structure MethodOutline where
  flags : UInt16
  name : String
  descriptor : String

/-- What a class without fields and code shows; names are internal names. The texts are those of
its names and descriptors. -/
structure Outline where
  flags : UInt16
  name : String
  superName : String
  interfaces : List String := []
  methods : List MethodOutline := []
  texts : List String

namespace ClassFile

/-- With the constants of the pool, the class file shows the outline. -/
structure ShownIn (f : ClassFile) (r : ConstantPool) (o : Outline) : Prop where
  name : r.className f.thisClass = .ok o.name
  superName : r.className f.superClass = .ok o.superName
  interfaces : List.Forall₂ (fun i name => r.className i = .ok name) f.interfaces o.interfaces
  methods : List.Forall₂ (fun m (s : MethodOutline) => m.flags = s.flags ∧
    r.utf8 m.name = .ok s.name ∧ r.utf8 m.descriptor = .ok s.descriptor) f.methods o.methods

end ClassFile

namespace ClassUnit

variable {c c' : ClassUnit} {o : Outline}

/-- The class shows the outline, in its pool and in later ones. -/
structure HasOutline (c : ClassUnit) (o : Outline) : Prop where
  flags : c.file.flags = o.flags
  fields : c.file.fields = []
  attributes : c.file.attributes = []
  codeless : ∀ m ∈ c.file.methods, m.attributes = []
  mentions : c.file.pool.Mentions o.texts
  shown : ∀ r, c.file.pool.Grows r → r.Indexable → c.file.ShownIn r o

/-- A new class shows its name and that of its superclass. -/
theorem hasOutline_ofNames (name : TypeName) (major flags : UInt16) (thisName superName : String) :
    HasOutline { name, file := .ofNames major flags thisName superName }
      { flags, name := thisName, superName, texts := [thisName, superName] } where
  flags := rfl
  fields := rfl
  attributes := rfl
  codeless := fun _ h => nomatch h
  mentions := (ConstantPool.mentions_empty.addClass thisName).addClass superName
  shown := fun r hr hindexable => by
    obtain ⟨hgrows, hsuper⟩ := ConstantPool.adds_class superName
      ((ConstantPool.addClass thisName).run .empty).2
    have hthis := (ConstantPool.adds_class thisName .empty).2
    exact ⟨hthis r (hgrows.trans hr) hindexable, hsuper r hr hindexable, .nil, .nil⟩

namespace HasOutline

/-- Constants that are added change nothing that is shown. -/
theorem withPool (h : c.HasOutline o) {p : ConstantPool} {texts : List String}
    (hgrows : c.file.pool.Grows p) (hmentions : p.Mentions texts) :
    HasOutline { c with file := { c.file with pool := p } } { o with texts } where
  flags := h.flags
  fields := h.fields
  attributes := h.attributes
  codeless := h.codeless
  mentions := hmentions
  shown := fun r hr hindexable =>
    have hshown := h.shown r (hgrows.trans hr) hindexable
    ⟨hshown.name, hshown.superName, hshown.interfaces, hshown.methods⟩

theorem setFlags (h : c.HasOutline o) (flags : UInt16) :
    ∃ c', (ClassUnit.setFlags flags).run.run c = (.ok (), c') ∧ c'.HasOutline { o with flags } := by
  refine ⟨_, rfl, rfl, h.fields, h.attributes, h.codeless, h.mentions, fun r hr hindexable => ?_⟩
  have hshown := h.shown r hr hindexable
  exact ⟨hshown.name, hshown.superName, hshown.interfaces, hshown.methods⟩

/-- A class constant is added, and what is shown stays. -/
theorem exists_addClass (h : c.HasOutline o) (name : String) :
    ∃ index c₁, (addConstants (ConstantPool.addClass name)).run.run c = (.ok index, c₁) ∧
      c₁.HasOutline { o with texts := o.texts ++ [name] } ∧
      ∀ r, c₁.file.pool.Grows r → r.Indexable → r.className index = .ok name := by
  obtain ⟨hgrows, hclass⟩ := ConstantPool.adds_class name c.file.pool
  exact ⟨_, _, run_addConstants rfl, h.withPool hgrows (h.mentions.addClass name), hclass⟩

theorem setSuperclass (h : c.HasOutline o) (t : TypeName) :
    ∃ c', (ClassUnit.setSuperclass t).run.run c = (.ok (), c') ∧
      c'.HasOutline { o with
        superName := t.internalName, texts := o.texts ++ [t.internalName] } := by
  obtain ⟨index, c₁, hadd, hadded, hclass⟩ := h.exists_addClass t.internalName
  refine ⟨{ c₁ with file := { c₁.file with superClass := index } }, run_bind_of_ok hadd, ?_⟩
  refine ⟨hadded.flags, hadded.fields, hadded.attributes, hadded.codeless, hadded.mentions,
    fun r hr hindexable => ?_⟩
  have hshown := hadded.shown r hr hindexable
  exact ⟨hshown.name, hclass r hr hindexable, hshown.interfaces, hshown.methods⟩

/-- An interface that is not shown yet is shown as the last one. -/
theorem addInterface (h : c.HasOutline o) {t : TypeName} (hnew : t.internalName ∉ o.interfaces) :
    ∃ c', (ClassUnit.addInterface t).run.run c = (.ok (), c') ∧
      c'.HasOutline { o with
        interfaces := o.interfaces ++ [t.internalName], texts := o.texts ++ [t.internalName] } := by
  obtain ⟨index, c₁, hadd, hadded, hclass⟩ := h.exists_addClass t.internalName
  have hrun : (ClassUnit.addInterface t).run.run c = (.ok (),
      let file := if c₁.file.interfaces.contains index then c₁.file
        else { c₁.file with interfaces := c₁.file.interfaces ++ [index] }
      { c₁ with file }) := run_bind_of_ok hadd
  by_cases hthere : index ∈ c₁.file.interfaces
  · rw [if_pos (List.contains_iff_mem.mpr hthere)] at hrun
    refine ⟨_, hrun, hadded.flags, hadded.fields, hadded.attributes, hadded.codeless,
      hadded.mentions, fun r hr hindexable => ?_⟩
    -- the index is that of an interface that is shown
    have hshown := hadded.shown r hr hindexable
    obtain ⟨name, hname, hat⟩ := Checked.exists_of_mem_left hshown.interfaces hthere
    obtain rfl := Except.ok.inj ((hclass r hr hindexable).symm.trans hat)
    exact absurd hname hnew
  · rw [if_neg (mt List.contains_iff_mem.mp hthere)] at hrun
    refine ⟨_, hrun, hadded.flags, hadded.fields, hadded.attributes, hadded.codeless,
      hadded.mentions, fun r hr hindexable => ?_⟩
    have hshown := hadded.shown r hr hindexable
    exact ⟨hshown.name, hshown.superName,
      List.rel_append hshown.interfaces (.cons (hclass r hr hindexable) .nil), hshown.methods⟩

/-- No method has a descriptor that the class does not mention. -/
theorem hasMethod_eq_false (h : c.HasOutline o) {name descriptor : String}
    (hnew : descriptor ∉ o.texts) : c.hasMethod name descriptor = false := by
  rw [hasMethod, ClassFile.methodPosition?, List.findIdx?_isSome, List.any_eq_false]
  intro m hm hmember
  rw [ClassFile.isMember, Bool.and_eq_true, hasText_iff, hasText_iff] at hmember
  exact hnew (h.mentions.mem descriptor (ConstantPool.mem_of_get? hmember.2))

theorem exists_addUtf8 (h : c.HasOutline o) (text : String) :
    ∃ index c₁, (addConstants (ConstantPool.addUtf8 text)).run.run c = (.ok index, c₁) ∧
      c₁.HasOutline { o with texts := o.texts ++ [text] } :=
  ⟨_, _, run_addConstants rfl,
    h.withPool (ConstantPool.adds_utf8 text c.file.pool).1 (h.mentions.addUtf8 text)⟩

theorem exists_memberInfo (h : c.HasOutline o) (flags : UInt16) (name descriptor : String) :
    ∃ m c₁, (memberInfo flags name descriptor).run.run c = (.ok m, c₁) ∧ m.flags = flags ∧
      m.attributes = [] ∧ c₁.HasOutline { o with texts := o.texts ++ [name, descriptor] } := by
  obtain ⟨nameIndex, c₁, hname, hfirst⟩ := h.exists_addUtf8 name
  obtain ⟨descriptorIndex, c₂, hdescriptor, hsecond⟩ := hfirst.exists_addUtf8 descriptor
  refine ⟨{ flags, name := nameIndex, descriptor := descriptorIndex }, c₂,
    (run_bind_of_ok hname).trans (run_bind_of_ok hdescriptor), rfl, rfl, ?_⟩
  simpa using hsecond

/-- A method that the class does not have is shown as the last one. -/
theorem declareMethod (h : c.HasOutline o) {flags : UInt16} {name : String} {params : List TypeName}
    {ret : TypeName} (hnew : c.hasMethod name (methodDescriptor params ret) = false) :
    ∃ c', (ClassUnit.declareMethod flags name params ret).run.run c = (.ok (), c') ∧
      c'.HasOutline { o with
        methods := o.methods ++ [⟨flags, name, methodDescriptor params ret⟩]
        texts := o.texts ++ [name, methodDescriptor params ret] } := by
  obtain ⟨m, c₁, hinfo, hflags, hattributes, hadded⟩ :=
    h.exists_memberInfo flags name (methodDescriptor params ret)
  have hrun : (ClassUnit.declareMethod flags name params ret).run.run c =
      (.ok (), { c₁ with file := { c₁.file with methods := c₁.file.methods ++ [m] } }) := by
    unfold ClassUnit.declareMethod
    rw [run_get_bind, hnew]
    exact run_bind_of_ok hinfo
  refine ⟨_, hrun, hadded.flags, hadded.fields, hadded.attributes,
    List.forall_mem_append.mpr ⟨hadded.codeless, List.forall_mem_singleton.mpr hattributes⟩,
    hadded.mentions, fun r hr hindexable => ?_⟩
  have hshown := hadded.shown r hr hindexable
  have htexts := of_memberInfo hinfo hr hindexable
  exact ⟨hshown.name, hshown.superName, hshown.interfaces,
    List.rel_append hshown.methods (.cons ⟨hflags, htexts⟩ .nil)⟩

/-- As long as its constants have indices, the class has the methods that are shown. -/
theorem hasMethod_eq (h : c.HasOutline o) (hindexable : c.file.pool.Indexable)
    (name descriptor : String) : c.hasMethod name descriptor =
      o.methods.any fun s => s.name == name && s.descriptor == descriptor := by
  have hshown := (h.shown _ (.refl _) hindexable).methods
  rw [hasMethod, ClassFile.methodPosition?, List.findIdx?_isSome, Bool.eq_iff_iff,
    List.any_eq_true, List.any_eq_true]
  simp only [ClassFile.isMember, Bool.and_eq_true, hasText_iff, ← ConstantPool.utf8_eq_ok,
    beq_iff_eq]
  constructor
  · rintro ⟨m, hm, hname, hdescriptor⟩
    obtain ⟨s, hs, -, hname', hdescriptor'⟩ := Checked.exists_of_mem_left hshown hm
    exact ⟨s, hs, Except.ok.inj (hname'.symm.trans hname),
      Except.ok.inj (hdescriptor'.symm.trans hdescriptor)⟩
  · rintro ⟨s, hs, rfl, rfl⟩
    obtain ⟨m, hm, -, htexts⟩ := Checked.exists_of_mem_right hshown hs
    exact ⟨m, hm, htexts⟩

/-- What is shown counts only as long as all constants have indices. -/
theorem withMethods (h : c.HasOutline o) {methods : List MethodOutline}
    (hsame : c.file.pool.Indexable → methods = o.methods) : c.HasOutline { o with methods } where
  flags := h.flags
  fields := h.fields
  attributes := h.attributes
  codeless := h.codeless
  mentions := h.mentions
  shown := fun r hr hindexable => by
    have hshown := h.shown r hr hindexable
    exact ⟨hshown.name, hshown.superName, hshown.interfaces,
      hsame (hr.indexable hindexable) ▸ hshown.methods⟩

theorem withTexts (h : c.HasOutline o) (more : List String) :
    c.HasOutline { o with texts := o.texts ++ more } :=
  h.withPool (.refl _) (h.mentions.append more)

/-- A method is shown as the last one, unless the class has it. -/
theorem declareMethod_unless (h : c.HasOutline o) (flags : UInt16) (name : String)
    (params : List TypeName) (ret : TypeName) :
    ∃ c', (do
        if !(← get).hasMethod name (methodDescriptor params ret) then
          ClassUnit.declareMethod flags name params ret : Edit Unit).run.run c = (.ok (), c') ∧
      c'.HasOutline { o with
        methods :=
          if o.methods.any fun s => s.name == name && s.descriptor == methodDescriptor params ret
          then o.methods else o.methods ++ [⟨flags, name, methodDescriptor params ret⟩]
        texts := o.texts ++ [name, methodDescriptor params ret] } := by
  cases hthere : c.hasMethod name (methodDescriptor params ret) with
  | true =>
    refine ⟨c, ?_, (h.withTexts _).withMethods fun hindexable => ?_⟩
    · rw [run_get_bind, hthere]
      rfl
    · rw [← h.hasMethod_eq hindexable, hthere, if_pos rfl]
  | false =>
    have hnew : ∃ c', (ClassUnit.declareMethod flags name params ret).run.run c = (.ok (), c') ∧
        c'.HasOutline { o with
          methods := o.methods ++ [⟨flags, name, methodDescriptor params ret⟩]
          texts := o.texts ++ [name, methodDescriptor params ret] } := h.declareMethod hthere
    obtain ⟨c', hrun, hc'⟩ := hnew
    have hstep : c.runEdit (ClassOp.declareMethod flags name params ret).step = (.ok (), c') := hrun
    refine ⟨c', ?_, hc'.withMethods fun hindexable => ?_⟩
    · rw [run_get_bind, hthere]
      exact hrun
    · rw [← h.hasMethod_eq ((KeepsMembers.of_step hstep).pool.indexable hindexable), hthere]
      rfl

/-! ### Bytes -/

/-- Each interface takes two constants of its own. -/
theorem two_mul_interfaces_le (h : c.HasOutline o) (hindexable : c.file.pool.Indexable)
    (hnodup : o.interfaces.Nodup) : 2 * o.interfaces.length ≤ c.file.pool.slots.size := by
  have hshown := h.shown _ (.refl _) hindexable
  have hconstants : ∀ name ∈ o.interfaces, ∃ u, some (.classRef u) ∈ c.file.pool.slots.toList ∧
      c.file.pool.get? u = some (.utf8 name) := by
    intro name hname
    obtain ⟨i, -, hi⟩ := Checked.exists_of_mem_right hshown.interfaces hname
    unfold ConstantPool.className at hi
    split at hi
    · next u hclass =>
      exact ⟨u, ConstantPool.mem_of_get? hclass, ConstantPool.utf8_eq_ok.mp hi⟩
    · cases hi
  choose! u hclass htext using hconstants
  let texts := o.interfaces.map fun name => some (Constant.utf8 name)
  let classes := o.interfaces.map fun name => some (Constant.classRef (u name))
  have hsub : texts ++ classes ⊆ c.file.pool.slots.toList := by
    refine List.append_subset.mpr ⟨List.forall_mem_map.mpr fun name hname => ?_,
      List.forall_mem_map.mpr hclass⟩
    exact ConstantPool.mem_of_get? (htext name hname)
  have hdistinct : (texts ++ classes).Nodup := by
    refine List.nodup_append'.mpr ⟨hnodup.map fun a b hab => by simpa using hab, ?_, ?_⟩
    · refine hnodup.map_on fun a ha b hb hab => ?_
      have hsame : u a = u b := by simpa using hab
      have hutf8 := (htext a ha).symm.trans (hsame ▸ htext b hb)
      simpa using hutf8
    · intro constant htext hclass
      obtain ⟨name, -, rfl⟩ := List.mem_map.mp htext
      obtain ⟨_, -, hsame⟩ := List.mem_map.mp hclass
      cases hsame
  have hle := (hdistinct.subperm hsub).length_le
  simp only [texts, classes, List.length_append, List.length_map, Array.length_toList] at hle
  omega

theorem countable (h : c.HasOutline o) (hindexable : c.file.pool.Indexable)
    (hnodup : o.interfaces.Nodup)
    (htexts : ∀ text ∈ o.texts, (ModifiedUtf8.encode text).length ≤ 65535)
    (hmethods : o.methods.length ≤ 65535) : c.file.Countable where
  texts := by
    intro constant hconstant
    cases constant with
    | utf8 text => exact htexts text (h.mentions.mem text hconstant)
    | _ => exact Nat.zero_le _
  interfaces := by
    have hshown := h.shown _ (.refl _) hindexable
    have hle := h.two_mul_interfaces_le hindexable hnodup
    rw [hshown.interfaces.length_eq]
    unfold ConstantPool.Indexable at hindexable
    omega
  fields := by simp [h.fields]
  fieldAttributes := by simp [h.fields]
  methods := by
    rw [(h.shown _ (.refl _) hindexable).methods.length_eq]
    exact hmethods
  methodAttributes := fun m hm => by
    rw [h.codeless m hm]
    exact ⟨Nat.zero_le _, fun _ h => nomatch h⟩
  attributes := by simp [h.attributes]

/-- A class is not written with more constants than can be counted. -/
theorem toBytes_of_lt (hcount : 65535 < c.file.pool.count) :
    c.toBytes = .error (.classFormat .outOfSpace) := by
  rw [toBytes, ClassFile.toBytes, ConstantPool.toBytes, if_pos hcount]
  rfl

/-- Otherwise it is read back. -/
theorem exists_toBytes (h : c.HasOutline o) (hcount : c.file.pool.count ≤ 65535)
    (hnodup : o.interfaces.Nodup)
    (htexts : ∀ text ∈ o.texts, (ModifiedUtf8.encode text).length ≤ 65535)
    (hmethods : o.methods.length ≤ 65535) :
    ∃ bytes, c.toBytes = .ok bytes ∧ ClassFile.parse bytes = .ok c.file := by
  have hindexable : c.file.pool.Indexable := Nat.le_of_succ_le hcount
  have hcountable := h.countable hindexable hnodup htexts hmethods
  obtain ⟨hmany | hmany, -⟩ | ⟨bytes, hbytes, -, hparse⟩ :=
    ClassFile.toBytes_exact h.mentions.built hcountable
  · exact absurd hcount (Nat.not_le_of_lt hmany)
  · simp [h.attributes] at hmany
  · exact ⟨bytes, by rw [toBytes, hbytes]; rfl, hparse⟩

end HasOutline

end ClassUnit

end ClassSynth
